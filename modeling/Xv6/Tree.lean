import Xv6.Namespace
import Mathlib.Data.Set.Card

namespace Xv6

/- The directories as a tree. -/

/-- Slot `s` of directory `d` names file `k`. The first two slots are for . and .. -/
structure Entry (N : Nat → Node) (d s k : Nat) : Prop where
  dir : (N d).type = T_DIR
  slot : 2 ≤ s
  inum : ((N d).entry s).inum = k
  pos : k ≠ 0

/-- The names that file `k` has. -/
def names (N : Nat → Node) (k : Nat) : Set (Nat × Nat) := {o | Entry N o.1 o.2 k}

/-- The slots of directory `d` that name directories. -/
def subdirs (N : Nat → Node) (d : Nat) : Set Nat := {s | ∃ k, Entry N d s k ∧ (N k).type = T_DIR}

/-- What the names of file `k` and the .. of its subdirectories come to. -/
noncomputable def weight (N : Nat → Node) (k : Nat) : Nat :=
  (names N k).ncard + (subdirs N k).ncard + if k = ROOTINO then 1 else 0

/-- The entries of directory `i` by themselves. -/
structure Dots (n : Node) (i : Nat) : Prop where
  within : ∀ s, (n.entry s).inum ≠ 0 → s < n.size / 16
  self : (n.entry 0).inum = i
  dot : namecmp dot (n.entry 0).name = true
  up : (n.entry 1).inum ≠ 0
  dotdot : namecmp dotdot (n.entry 1).name = true
  distinct : ∀ s s', (n.entry s).inum ≠ 0 → (n.entry s').inum ≠ 0 →
    namecmp (n.entry s).name (n.entry s').name = true → s = s'
  noslash : ∀ s, (n.entry s).inum ≠ 0 → slash ∉ cstr (n.entry s).name

/-- What holds of the files whatever is done to them, as long as no link count overflows. -/
structure Tree (N : Nat → Node) : Prop where
  zero : (N 0).type = 0
  root : (N ROOTINO).type = T_DIR
  top : ((N ROOTINO).entry 1).inum = ROOTINO
  dots : ∀ i, (N i).type = T_DIR → Dots (N i) i
  live : ∀ d s k, Entry N d s k → (N k).type ≠ 0
  parent : ∀ d s k, Entry N d s k → (N k).type = T_DIR → k ≠ ROOTINO ∧ ((N k).entry 1).inum = d
  single : ∀ d s s' k, Entry N d s k → Entry N d s' k → (N k).type = T_DIR → s = s'
  finite : ∀ k, (names N k).Finite ∧ (subdirs N k).Finite
  short : ∀ k, (N k).nlink < 2 ^ 15
  count : ∀ k, weight N k ≤ (N k).nlink

/-- Directory `d` has an entry for `k`. -/
def Above (N : Nat → Node) (d k : Nat) : Prop := ∃ s, Entry N d s k

/-- What holds in addition if no directory without links gets an entry: link counts are exact,
and every entry is below the root. -/
structure Hierarchy (N : Nat → Node) : Prop extends Tree N where
  exact : ∀ k, (N k).nlink = weight N k
  reach : ∀ d s k, Entry N d s k → Relation.ReflTransGen (Above N) ROOTINO d

/-- A directory without links gets an entry. -/
def Intrudes (N N' : Nat → Node) : Prop :=
  ∃ d s, (N d).type = T_DIR ∧ (N d).nlink = 0 ∧ ((N d).entry s).inum = 0 ∧
    ((N' d).entry s).inum ≠ 0

end Xv6
