import Mathlib.Data.List.Induction
import Xv6.Proofs.ShParse

namespace Xv6.Sh

/- The redirections of a simple command, as runcmd() does them. -/

variable {openable : List UInt8 → Nat → Bool} {p : Process} {a : List UInt8}

/-- The descriptor that the shell opens a file for. -/
def fdOf (mode : Nat) : Fin NOFILE := if mode = O_RDONLY then 0 else 1

/-- The file in place of the descriptor that it is opened for. -/
def Process.redirect (p : Process) (f : List UInt8 × Nat) : Process :=
  { p.set (fdOf f.2) (some (.file f.1 f.2)) with opens := p.opens ++ [f] }

def Dir.mode : Dir → Nat
  | .input => O_RDONLY
  | .output => O_WRONLY ||| O_CREATE ||| O_TRUNC
  | .append => O_WRONLY ||| O_CREATE

/-- The file that a redirection opens, and how. -/
def Redir.file (a : List UInt8) (r : Redir) : List UInt8 × Nat := (str a r.q, r.dir.mode)

theorem Process.fdalloc_zero (h : p.fds 0 = none) : p.fdalloc = some 0 := by
  have hfin : List.finRange NOFILE = 0 :: (List.finRange NOFILE).tail := by decide
  rw [Process.fdalloc, hfin, List.find?_cons_of_pos (by simp [h])]

theorem Process.fdalloc_one (h0 : (p.fds 0).isSome) (h : p.fds 1 = none) : p.fdalloc = some 1 := by
  have hfin : List.finRange NOFILE = 0 :: 1 :: (List.finRange NOFILE).tail.tail := by decide
  rw [Process.fdalloc, hfin, List.find?_cons_of_neg (by simpa using Option.isSome_iff_ne_none.mp h0), List.find?_cons_of_pos (by simp [h])]

theorem Process.set_set (p : Process) (fd : Fin NOFILE) (d d' : Option Desc) : (p.set fd d).set fd d' = p.set fd d' := by
  simp only [Process.set, Process.mk.injEq, and_true]
  funext i
  split <;> rfl

/-- close() frees the descriptor, and open() then takes it. -/
theorem runcmd_redir (cmd : Cmd) (q eq mode : Nat) (fd : Fin NOFILE) (hfree : (p.set fd none).fdalloc = some fd)
    (hopen : openable (str a q) mode = true) :
    (runcmd a (.redir cmd q eq mode fd.val)).exec (alone openable) p =
      (runcmd a cmd).exec (alone openable) { p.set fd (some (.file (str a q) mode)) with opens := p.opens ++ [(str a q, mode)] } := by
  have hclose : alone openable _ (.close fd.val) p = .ok () (p.set fd none) := by
    simp [alone, Int.toNat?]
  have hopened : alone openable _ (.openFile (str a q) mode) (p.set fd none) =
      .ok fd.val { p.set fd (some (.file (str a q) mode)) with opens := p.opens ++ [(str a q, mode)] } := by
    simp only [alone, hopen, if_true, hfree, Process.set_set]
    rfl
  have hneg : ¬((fd.val : Int) < 0) := by omega
  have hrun : runcmd a (.redir cmd q eq mode fd.val) = .cmd (.close fd.val) fun _ => .cmd (.openFile (str a q) mode) fun r =>
      if r < 0 then do
        Free.call (.print (bytes "open " ++ str a q ++ bytes " failed\n"))
        exit 1
      else runcmd a cmd := rfl
  rw [hrun, Free.exec, hclose]
  simp only [Free.exec, hopened, if_neg hneg]

theorem runcmd_wrap (hp : (p.fds 0).isSome) (r : Redir) (cmd : Cmd) (hopen : openable (r.file a).1 (r.file a).2 = true) :
    (runcmd a (r.wrap cmd)).exec (alone openable) p = (runcmd a cmd).exec (alone openable) (p.redirect (r.file a)) := by
  obtain ⟨d, q, eq⟩ := r
  have hzero : (p.set 0 none).fdalloc = some 0 := Process.fdalloc_zero rfl
  have hone : (p.set 1 none).fdalloc = some 1 := Process.fdalloc_one hp rfl
  cases d with
  | input => exact runcmd_redir cmd q eq O_RDONLY 0 hzero hopen
  | output => exact runcmd_redir cmd q eq (O_WRONLY ||| O_CREATE ||| O_TRUNC) 1 hone hopen
  | append => exact runcmd_redir cmd q eq (O_WRONLY ||| O_CREATE) 1 hone hopen

theorem Process.redirect_open (h : (p.fds 0).isSome) (f : List UInt8 × Nat) : ((p.redirect f).fds 0).isSome := by
  simp only [Process.redirect, Process.set]
  split
  · rfl
  · exact h

theorem foldl_redirect_open (h : (p.fds 0).isSome) (fs : List (List UInt8 × Nat)) : ((fs.foldl Process.redirect p).fds 0).isSome := by
  induction fs generalizing p with
  | nil => exact h
  | cons f fs ih => exact ih (Process.redirect_open h f)

/-- The last redirection is the outermost, and so is done first. -/
theorem runcmd_redirs (hp : (p.fds 0).isSome) (rs : List Redir) (cmd : Cmd) (hopen : ∀ r ∈ rs, openable (r.file a).1 (r.file a).2 = true) :
    (runcmd a (rs.foldl Redir.wrap cmd)).exec (alone openable) p =
      (runcmd a cmd).exec (alone openable) ((rs.map (Redir.file a)).reverse.foldl Process.redirect p) := by
  induction rs generalizing cmd with
  | nil => rfl
  | cons r rs ih =>
    rw [List.forall_mem_cons] at hopen
    rw [List.foldl_cons, ih (r.wrap cmd) hopen.2, runcmd_wrap (foldl_redirect_open hp _) r cmd hopen.1, List.map_cons, List.reverse_cons,
      List.foldl_append]
    rfl

theorem opens_foldl (fs : List (List UInt8 × Nat)) (p : Process) : (fs.foldl Process.redirect p).opens = p.opens ++ fs := by
  induction fs generalizing p with
  | nil => simp
  | cons f fs ih =>
    rw [List.foldl_cons, ih]
    simp [Process.redirect]

/-- A descriptor is the last file that was opened for it. -/
theorem fds_foldl (fs : List (List UInt8 × Nat)) (p : Process) (fd : Fin NOFILE) :
    (fs.foldl Process.redirect p).fds fd = ((fs.filter fun f => fdOf f.2 = fd).getLast?.map fun f => .file f.1 f.2).or (p.fds fd) := by
  induction fs using List.reverseRecOn with
  | nil => rfl
  | append_singleton fs f ih =>
    rw [List.foldl_append, List.filter_append]
    by_cases hfd : fdOf f.2 = fd
    · simp [hfd, Process.redirect, Process.set]
    · simp [hfd, Process.redirect, Process.set, Ne.symm hfd, ih]

/-- The files of the redirections of a simple command, in the order of the line, and how each is opened. -/
def files (line : List UInt8) (rs : List Redir) : List (List UInt8 × Nat) := rs.map fun r => (text line (r.q, r.eq), r.dir.mode)

/-- The command that is run: each descriptor is the last file of the line for it. -/
structure LeftToRight (p p' : Process) (files : List (List UInt8 × Nat)) : Prop where
  opens : p'.opens = p.opens ++ files
  input : p'.fds 0 = ((files.filter fun f => f.2 = O_RDONLY).getLast?.map fun f => .file f.1 f.2).or (p.fds 0)
  output : p'.fds 1 = ((files.filter fun f => f.2 ≠ O_RDONLY).getLast?.map fun f => .file f.1 f.2).or (p.fds 1)

theorem fdOf_zero (mode : Nat) : fdOf mode = 0 ↔ mode = O_RDONLY := by
  rw [fdOf]
  split
  · next h => exact iff_of_true rfl h
  · next h => exact iff_of_false (by decide) h

theorem fdOf_one (mode : Nat) : fdOf mode = 1 ↔ mode ≠ O_RDONLY := by
  rw [fdOf]
  split
  · next h => exact iff_of_false (by decide) (not_not_intro h)
  · next h => exact iff_of_true rfl h

theorem leftToRight_foldl (p : Process) (fs : List (List UInt8 × Nat)) : LeftToRight p (fs.foldl Process.redirect p) fs where
  opens := opens_foldl fs p
  input := by simp only [fds_foldl, fdOf_zero]
  output := by simp only [fds_foldl, fdOf_one]

variable {line post : List UInt8}

theorem str_terminated (h0 : 0 ∉ line) {c : Cmd} (hc : Parsed line c) {w : Nat × Nat} (hw : w ∈ c.words) :
    str (terminated line post c) w.1 = text line w := by
  rw [str, cstr_terminated h0 hc hw, Option.getD_some]

/-- What the shell does with a simple command: the files are opened from right to left. -/
theorem runcmd_simple (h0 : 0 ∉ line) {c : Cmd} (hc : Parsed line c) {rs : List Redir} {w : Nat × Nat} {ws : List (Nat × Nat)}
    (hsimple : c = rs.foldl Redir.wrap (.exec (w :: ws))) (hopen : ∀ f ∈ files line rs, openable f.1 f.2 = true) (hp : (p.fds 0).isSome) :
    (runcmd (terminated line post c) c).exec (alone openable) p =
      .fail (.exec (text line w) ((w :: ws).map (text line)) ((files line rs).reverse.foldl Process.redirect p)) := by
  have hwords := words_foldl rs (.exec (w :: ws))
  rw [← hsimple] at hwords
  have hfile (r : Redir) (hr : r ∈ rs) : r.file (terminated line post c) = (text line (r.q, r.eq), r.dir.mode) := by
    have hw : (r.q, r.eq) ∈ c.words := by
      rw [hwords]
      exact List.mem_append_right _ (List.mem_map.mpr ⟨r, hr, rfl⟩)
    rw [Redir.file, str_terminated h0 hc hw]
  have hfiles : rs.map (Redir.file (terminated line post c)) = files line rs := List.map_congr_left hfile
  have harg (v : Nat × Nat) (hv : v ∈ w :: ws) : str (terminated line post c) v.1 = text line v := by
    refine str_terminated h0 hc ?_
    rw [hwords]
    exact List.mem_append_left _ hv
  have hopen' (r : Redir) (hr : r ∈ rs) : openable (r.file (terminated line post c)).1 (r.file (terminated line post c)).2 = true := by
    rw [hfile r hr]
    exact hopen _ (List.mem_map.mpr ⟨r, hr, rfl⟩)
  nth_rewrite 2 [hsimple]
  rw [runcmd_redirs hp rs _ hopen', hfiles, ← harg w List.mem_cons_self, ← List.map_congr_left harg]
  rfl

/-- Whether the redirections of a simple command are done from left to right: they are done from right to left, so they are if the line
has the same files, opened the same way, in both directions. -/
theorem redirections_left_to_right_iff (line post : List UInt8) (h0 : 0 ∉ line) (rs : List Redir) (args : List Arg) (hne : args ≠ [])
    (hlen : args.length ≤ 9) (hlex : Lexes line 0 (redirToks rs ++ argToks args)) (openable : List UInt8 → Nat → Bool)
    (hopen : ∀ f ∈ files line (rs ++ args.flatMap Arg.redirs), openable f.1 f.2 = true) (p : Process)
    (hp : ∀ fd : Fin NOFILE, fd.val < 3 → (p.fds fd).isSome) :
    (∃ c a path p', parsecmd (line ++ 0 :: post) = .ok (c, a) ∧
      (runcmd a c).exec (alone openable) p = .fail (.exec path (args.map fun x => text line x.word) p') ∧
      LeftToRight p p' (files line (rs ++ args.flatMap Arg.redirs))) ↔
    (files line (rs ++ args.flatMap Arg.redirs)).reverse = files line (rs ++ args.flatMap Arg.redirs) := by
  obtain ⟨arg, args, rfl⟩ := List.exists_cons_of_ne_nil hne
  have hd := Derives.line 0 (.pipe (.simple rs (arg :: args) hlen))
  rw [List.replicate_zero, List.append_nil] at hd
  have hparsed : Parsed line ((rs ++ (arg :: args).flatMap Arg.redirs).foldl Redir.wrap (.exec (arg.word :: args.map Arg.word))) :=
    ⟨_, hlex, hd⟩
  have hparse := @parsecmd_complete line post h0 _ hparsed
  have hrun := @runcmd_simple openable p line post h0 _ hparsed _ _ _ rfl hopen (hp 0 (by decide))
  rw [show (arg.word :: args.map Arg.word).map (text line) = (arg :: args).map fun x => text line x.word by simp] at hrun
  constructor
  · rintro ⟨c, a, path, p', hc, hend, hleft⟩
    rw [hparse] at hc
    cases hc
    rw [hrun] at hend
    cases hend
    have hopens := hleft.opens
    rw [opens_foldl] at hopens
    exact List.append_cancel_left hopens
  · intro hrev
    refine ⟨_, _, _, _, hparse, hrun, ?_⟩
    rw [hrev]
    exact leftToRight_foldl p _

/-- The three descriptors are as they were when the shell began. -/
def shell : Process := ⟨fun fd => if fd.val < 3 then some (.inherited fd.val) else none, []⟩

theorem shell_open (fd : Fin NOFILE) (h : fd.val < 3) : (shell.fds fd).isSome := by
  rw [shell]
  simp only [h, if_true]
  rfl

/-- The tokens of `a<b`. -/
theorem lexes_input : Lexes [97, 60, 98] 0 (redirToks [] ++ argToks [⟨(0, 1), [⟨.input, 2, 3⟩]⟩]) :=
  @Lexes.word [97] [60, 98] 0 _ (by simp) (List.all_eq_true.mp rfl) (fun c hc => by cases hc; rfl)
    (.single rfl (@Lexes.word [98] [] 2 _ (by simp) (List.all_eq_true.mp rfl) (by simp) .nil))

theorem one_redirection : ∃ c a path p', parsecmd [97, 60, 98, 0] = .ok (c, a) ∧
    (runcmd a c).exec (alone fun _ _ => true) shell = .fail (.exec path [[97]] p') ∧ LeftToRight shell p' [([98], O_RDONLY)] :=
  (redirections_left_to_right_iff [97, 60, 98] [] (by decide) [] [⟨(0, 1), [⟨.input, 2, 3⟩]⟩] (by decide) (by decide) lexes_input
    (fun _ _ => true) (fun _ _ => rfl) shell shell_open).mpr (by decide)

/-- `a<b<c` opens c and then b, and reads from b. -/
theorem first_input_wins : ∃ c a p', parsecmd [97, 60, 98, 60, 99, 0] = .ok (c, a) ∧
    (runcmd a c).exec (alone fun _ _ => true) shell = .fail (.exec [97] [[97]] p') ∧
    p'.opens = [([99], O_RDONLY), ([98], O_RDONLY)] ∧ p'.fds 0 = some (.file [98] O_RDONLY) :=
  ⟨.redir (.redir (.exec [(0, 1)]) 2 3 O_RDONLY 0) 4 5 O_RDONLY 0, [97, 0, 98, 0, 99, 0], _, by decide, rfl, rfl, rfl⟩

end Xv6.Sh
