import Xv6.Lib.Lines
import Xv6.Proofs.InodeTable

namespace Xv6
variable {p : ProcId} {sb : Superblock} {disk : Disk} {N : Nat → Node} {t : Holders} {fs : Fs} {path rest name : List UInt8}

/-- The elements of a path: what the slashes separate, cut to the length of a directory entry. -/
def elements (path : List UInt8) : List (List UInt8) := ((Lines.pieces slash path).filter (· ≠ [])).map (List.take DIRSIZ)

theorem elements_slash (path : List UInt8) : elements (slash :: path) = elements path := by
  have hsplit := Lines.split_cons (d := slash) (l := []) List.not_mem_nil path
  rw [List.nil_append] at hsplit
  simp [elements, Lines.pieces, hsplit]

theorem elements_dropWhile (path : List UInt8) : elements (path.dropWhile (· == slash)) = elements path := by
  induction path with
  | nil => rfl
  | cons c path ih =>
    by_cases hc : c = slash
    · rw [List.dropWhile_cons_of_pos (by simpa using hc), ih, hc, elements_slash]
    · rw [List.dropWhile_cons_of_neg (by simpa using hc)]

theorem elements_append (hne : name ≠ []) (hs : slash ∉ name) (hrest : ∀ c ∈ rest.head?, c = slash) :
    elements (name ++ rest) = name.take DIRSIZ :: elements rest := by
  cases rest with
  | nil => simp [elements, Lines.pieces, Lines.split_piece hs, hne, Lines.split_nil]
  | cons c rest =>
    obtain rfl : c = slash := hrest c rfl
    rw [elements_slash]
    simp [elements, Lines.pieces, Lines.split_cons hs, hne]

theorem head?_dropWhile_slash {c : UInt8} {s : List UInt8} (h : path.dropWhile (· == slash) = c :: s) : c ≠ slash := by
  have hhead := List.head?_dropWhile_not (· == slash) path
  simpa [h] using hhead

theorem elements_cons {c : UInt8} (hc : c ≠ slash) (s : List UInt8) : elements (c :: s) =
    ((c :: s).takeWhile (· != slash)).take DIRSIZ :: elements ((c :: s).drop ((c :: s).takeWhile (· != slash)).length) := by
  have hcut := List.takeWhile_append_dropWhile (p := (· != slash)) (l := c :: s)
  have hdrop : (c :: s).drop ((c :: s).takeWhile (· != slash)).length = (c :: s).dropWhile (· != slash) := by
    have hleft := congrArg (List.drop ((c :: s).takeWhile (· != slash)).length) hcut
    rw [List.drop_left] at hleft
    exact hleft.symm
  rw [hdrop, ← elements_append]
  · rw [hcut]
  · simp [hc]
  · intro hmem
    simpa using List.all_eq_true.mp List.all_takeWhile _ hmem
  · intro x hx
    have hhead := List.head?_dropWhile_not (· != slash) (c :: s)
    rw [Option.mem_def.mp hx] at hhead
    simpa using hhead

/-- skipelem() takes one element off. -/
theorem elements_skipelem (path : List UInt8) : match skipelem path with
    | none => elements path = []
    | some (name, rest) => elements path = name :: elements rest ∧ (rest = [] ↔ elements rest = []) := by
  rw [← elements_dropWhile path, skipelem]
  cases hs : path.dropWhile (· == slash) with
  | nil => rfl
  | cons c s =>
    refine ⟨?_, fun h => by rw [h]; rfl, fun h => ?_⟩
    · rw [elements_dropWhile, elements_cons (head?_dropWhile_slash hs)]
    · cases hr : List.dropWhile (· == slash) ((c :: s).drop ((c :: s).takeWhile (· != slash)).length) with
      | nil => rfl
      | cons c' s' =>
        rw [hr, elements_cons (head?_dropWhile_slash hr)] at h
        cases h

/-- One element looked up in file `i`. -/
def enter (N : Nat → Node) (i : Nat) (name : List UInt8) : Option Nat :=
  if (N i).type = T_DIR then ((N i).find name).map fun s => ((N i).entry s).inum else none

/-- What the elements lead to from file `i`, one after the other. -/
def follow (N : Nat → Node) (i : Nat) (names : List (List UInt8)) : Option Nat := names.foldlM (enter N) i

/-- The directory that the last element is looked up in, and that element. -/
def followParent (N : Nat → Node) (i : Nat) (names : List (List UInt8)) : Option (Nat × List UInt8) := do
  let name ← names.getLast?
  let d ← follow N i names.dropLast
  if (N d).type = T_DIR then some (d, name) else none

theorem walk_follow (N : Nat → Node) {fuel : Nat} (hfuel : path.length < fuel) (i : Nat) (name : List UInt8) :
    (walk N false fuel i path name).map Prod.fst = follow N i (elements path) := by
  induction fuel generalizing path i name with
  | zero => omega
  | succ fuel ih =>
    have helem := elements_skipelem path
    rw [walk]
    cases hskip : skipelem path with
    | none =>
      rw [hskip] at helem
      simp [helem, follow]
    | some y =>
      obtain ⟨elem, rest⟩ := y
      have hlen := skipelem_length hskip
      rw [hskip] at helem
      rw [helem.1, follow, List.foldlM_cons, enter]
      by_cases hd : (N i).type = T_DIR
      · cases hf : (N i).find elem with
        | none => simp [hd, hf]
        | some s => simpa [hd, hf, follow] using ih (by omega) _ elem
      · simp [hd]

theorem walk_followParent (N : Nat → Node) {fuel : Nat} (hfuel : path.length < fuel) (i : Nat) (name : List UInt8) :
    walk N true fuel i path name = followParent N i (elements path) := by
  induction fuel generalizing path i name with
  | zero => omega
  | succ fuel ih =>
    have helem := elements_skipelem path
    rw [walk]
    cases hskip : skipelem path with
    | none =>
      rw [hskip] at helem
      simp [helem, followParent]
    | some y =>
      obtain ⟨elem, rest⟩ := y
      have hlen := skipelem_length hskip
      rw [hskip] at helem
      obtain ⟨helem, hlast⟩ := helem
      rw [helem]
      by_cases hrest : rest = []
      · rw [hlast.mp hrest]
        by_cases hd : (N i).type = T_DIR
        · simp [hd, hrest, followParent, follow]
        · simp [hd, followParent, follow]
      · have hmore : elements rest ≠ [] := fun h => hrest (hlast.mpr h)
        have hnext := ih (show rest.length < fuel by omega)
        rw [followParent, List.getLast?_cons_of_ne_nil hmore, List.dropLast_cons_of_ne_nil hmore, follow, List.foldlM_cons, enter]
        by_cases hd : (N i).type = T_DIR
        · cases hf : (N i).find elem with
          | none => simp [hd, hf, hrest]
          | some s => simpa [hd, hf, hrest, follow, followParent] using hnext _ elem
        · simp [hd]

/-- The file where a path of process `p` starts. -/
def Fs.start (fs : Fs) (p : ProcId) (path : List UInt8) : Nat :=
  if path.head? = some slash then ROOTINO
  else
    match (fs.mem.proc p).bind Proc.cwd with
    | none => 0
    | some ip => (fs.mem.inode ip).inum

theorem Inside.start (h : Inside p sb N t fs) (hi : t.Idle) (path : List UInt8) : t.start p path = fs.start p path := by
  rw [Holders.start, Fs.start, Holders.cwd, h.proc hi.moving]
  cases hcwd : (t.proc p).bind Proc.cwd with
  | none => rfl
  | some ip =>
    have hheld : 0 < t.held ip := held_pos.mpr (.inr ⟨p, decide_eq_true hcwd⟩)
    simp only [(h.entry_of (.inr (.inr ⟨hheld, rfl⟩))).2.1]

/-- There is one more reference, to `r`, and nothing else is different. -/
structure Referred (fs fs' : Fs) (r : Option InodePtr) : Prop where
  node : fs'.node = fs.node
  ref : ∀ ip, (fs'.mem.inode ip).ref = (fs.mem.inode ip).ref + if r = some ip then 1 else 0
  lock : ∀ ip, (fs'.mem.inode ip).lock = none

theorem Inside.slot_ref {fs' : Fs} {t' : Holders} (h : Inside p sb N t' fs') (ip : InodePtr) : (fs'.mem.inode ip).ref = t'.count ip := by
  obtain ⟨ino, hw⟩ := h
  exact (hw.mem.slot ip).ref

theorem Inside.slot_free {fs' : Fs} {t' : Holders} (h : Inside p sb N t' fs') (hc : t'.Calm) (ip : InodePtr) :
    (fs'.mem.inode ip).lock = none := by
  obtain ⟨ino, hw⟩ := h
  exact (hw.mem.slot ip).free (hc.unlocked ip)

theorem Inside.referred_none {fs' : Fs} (h : Inside p sb fs.node t fs) (hi : t.Idle) (h' : Inside p sb fs.node t fs') :
    Referred fs fs' none where
  node := h'.eq_node.symm
  ref ip := by simp [h.slot_ref, h'.slot_ref]
  lock := h'.slot_free hi.toCalm

theorem Inside.referred_some {fs' : Fs} {ip : InodePtr} {i : Nat} (h : Inside p sb fs.node t fs) (hi : t.Idle)
    (h' : Inside p sb fs.node (t.take ip i) fs') : Referred fs fs' (some ip) ∧ (fs'.mem.inode ip).inum = i := by
  refine ⟨⟨h'.eq_node.symm, fun jp => ?_, h'.slot_free (hi.toCalm.take ip i)⟩, (h'.entry_of (.inl List.mem_cons_self)).2.1⟩
  rw [h.slot_ref, h'.slot_ref]
  by_cases hj : jp = ip
  · simp [hj, Holders.count_take]
  · simp [Holders.count_take_other t i hj, Ne.symm hj]

/-- From a well-formed image on, whatever calls but chmod() are made: namei() follows the elements of the path, nameiparent() all but
the last, and they leave one reference, to what they return, and no lock. -/
theorem path_resolution (h : WellFormed sb disk) (hr : Reaches Fs.stepNoChmod (Fs.boot sb disk) fs) (p : ProcId) (path : List UInt8) :
    (∀ r fs', (Kern.namei path).exec (Fs.run p) fs = .ok r fs' →
      r.map (fun ip => (fs'.mem.inode ip).inum) = follow fs.node (fs.start p path) (elements path) ∧ Referred fs fs' r) ∧
    ∀ r fs', (Kern.nameiparent path).exec (Fs.run p) fs = .ok r fs' →
      r.map (fun y => ((fs'.mem.inode y.1).inum, y.2)) = followParent fs.node (fs.start p path) (elements path) ∧
        Referred fs fs' (r.map Prod.fst) := by
  obtain ⟨t, hi, hin⟩ := healthy_of_reaches h hr
  have h₀ := hin p
  have hbenign : Benign fun _ => True := fun _ _ _ _ _ => trivial
  have hlen : path.length < path.length + 1 := Nat.lt_succ_self _
  constructor
  · intro r fs' hrun
    have hspec := (namei_spec hbenign h.super (.inl trivial) h₀ hi.toCalm path).ok_of_exec hrun
    rw [← walk_follow fs.node hlen _ [], ← h₀.start hi]
    cases r with
    | none => exact ⟨hspec.1.symm, h₀.referred_none hi hspec.2⟩
    | some ip =>
      obtain ⟨i, hwalk, -, h'⟩ := hspec
      obtain ⟨href, hinum⟩ := h₀.referred_some hi h'
      exact ⟨(congrArg some hinum).trans hwalk.symm, href⟩
  · intro r fs' hrun
    have hspec := (nameiparent_spec hbenign h.super (.inl trivial) h₀ hi.toCalm path).ok_of_exec hrun
    rw [← walk_followParent fs.node hlen _ [], ← h₀.start hi]
    cases r with
    | none => exact ⟨hspec.1.symm, h₀.referred_none hi hspec.2⟩
    | some y =>
      obtain ⟨d, hwalk, -, h'⟩ := hspec
      obtain ⟨href, hinum⟩ := h₀.referred_some hi h'
      exact ⟨(congrArg (fun d => some (d, y.2)) hinum).trans hwalk.symm, href⟩

set_option maxRecDepth 100000 in
theorem path_resolution_file : ∃ ip fs', (Kern.namei [47, 102]).exec (Fs.run 0) (Fs.boot mkfsSb fileImage) = .ok (some ip) fs' ∧
    Referred (Fs.boot mkfsSb fileImage) fs' (some ip) := by
  have hrun : ((Kern.namei [47, 102]).exec (Fs.run 0) (Fs.boot mkfsSb fileImage)).check (fun r _ => r.isSome) = true := by
    decide +kernel
  obtain ⟨r, fs', hrun, hsome⟩ := Out.check_iff.mp hrun
  obtain ⟨ip, rfl⟩ := Option.isSome_iff_exists.mp hsome
  exact ⟨ip, fs', hrun, ((path_resolution fileImage_wellFormed .start 0 [47, 102]).1 _ _ hrun).2⟩

end Xv6
