import Xv6.Nodes
import Mathlib.Logic.Relation

namespace Xv6

/- What the system calls mean for the table of files, without blocks and memory. -/

namespace Node

/-- An inode that was just allocated. -/
def fresh (type : Int) : Node := ⟨type, 0, 0, 0, 0, fun _ => .empty, fun _ => 0⟩

/-- A directory with the entry `de` in slot `s`. -/
def enter (n : Node) (s : Nat) (de : Dirent) : Node :=
  { n with size := max n.size (16 * s + 16), entry := setAt n.entry s de }

@[simp] theorem entry_enter (n : Node) (s : Nat) (de : Dirent) : (n.enter s de).entry s = de :=
  setAt_same _ _ _

theorem entry_enter_other (n : Node) {s s' : Nat} (de : Dirent) (h : s' ≠ s) :
    (n.enter s de).entry s' = n.entry s' := setAt_other _ _ _ h

def addLink (n : Node) (k : Int) : Node := { n with nlink := toShort (n.nlink + k) }

/-- A new file with one link. -/
def made (type major minor : Int) : Node :=
  { fresh type with major := major, minor := minor, nlink := 1 }

/-- The new directory `i` in directory `d`. -/
def dots (n : Node) (i d : Nat) : Node :=
  (n.enter 0 ⟨i, strncpy dot⟩).enter 1 ⟨d, strncpy dotdot⟩

end Node

/-- What sys_unlink() leaves of an entry. -/
def Dirent.erased : Dirent := ⟨0, List.replicate DIRSIZ 0⟩

/-- link(): the file `i` gets a name in slot `s` of directory `d`. -/
def linkAt (N : Nat → Node) (d s i : Nat) (name : List UInt8) : Nat → Node :=
  setAt (setAt N i ((N i).addLink 1)) d ((N d).enter s ⟨i, strncpy name⟩)

/-- create(): the free inode `i` becomes `new`, with a name in slot `s` of directory `d`. -/
def makeAt (N : Nat → Node) (d s i : Nat) (name : List UInt8) (new : Node) : Nat → Node :=
  setAt (setAt N i new) d
    (if new.type = T_DIR then ((N d).enter s ⟨i, strncpy name⟩).addLink 1
      else (N d).enter s ⟨i, strncpy name⟩)

/-- unlink(): the file `i` loses its name in slot `s` of directory `d`. -/
def unlinkAt (N : Nat → Node) (d s i : Nat) : Nat → Node :=
  setAt (setAt N d
    (if (N i).type = T_DIR then ((N d).enter s .erased).addLink (-1) else (N d).enter s .erased))
    i ((N i).addLink (-1))

/-- The first empty slot of directory `d` is `s`, and the name is new there. -/
structure Enters (N : Nat → Node) (d s : Nat) (name : List UInt8) : Prop where
  dir : (N d).type = T_DIR
  slot : 16 * s ≤ (N d).size
  empty : ((N d).entry s).inum = 0
  first : ∀ s', s' < s → ((N d).entry s').inum ≠ 0
  new : (N d).find name = none
  noslash : slash ∉ name

/-- The file that create() makes as inode `i` in directory `d`. -/
def Node.new (type major minor : Int) (i d : Nat) : Node :=
  if type = T_DIR then (Node.made type major minor).dots i d else .made type major minor

structure Links (N : Nat → Node) (d s i : Nat) (name : List UInt8) : Prop where
  enters : Enters N d s name
  live : (N i).type ≠ 0
  file : (N i).type ≠ T_DIR

structure Makes (N : Nat → Node) (d s i : Nat) (name : List UInt8) (type : Int) : Prop where
  enters : Enters N d s name
  free : (N i).type = 0
  pos : 0 < i
  type : type = T_DIR ∨ type = T_FILE ∨ type = T_DEVICE

structure Unlinks (N : Nat → Node) (d s i : Nat) : Prop where
  dir : (N d).type = T_DIR
  slot : 16 * s < (N d).size
  names : ((N d).entry s).inum = i
  pos : i ≠ 0
  live : (N i).type ≠ 0
  other : i ≠ d
  nodot : namecmp dot ((N d).entry s).name = false
  nodotdot : namecmp dotdot ((N d).entry s).name = false
  linked : 1 ≤ (N i).nlink
  vacant : (N i).type = T_DIR → ∀ s, 2 ≤ s → ((N i).entry s).inum = 0

/-- A change of the names. -/
inductive Renames (N : Nat → Node) : (Nat → Node) → Prop
  | link {d s i : Nat} {name : List UInt8} (h : Links N d s i name) :
      Renames N (linkAt N d s i name)
  | make {d s i : Nat} {name : List UInt8} {type : Int} (major minor : Int)
      (h : Makes N d s i name type) :
      Renames N (makeAt N d s i name (.new type major minor i d))
  | unlink {d s i : Nat} (h : Unlinks N d s i) : Renames N (unlinkAt N d s i)

/-- A change that concerns one file: it is freed, or its content changes. -/
inductive Fades (N : Nat → Node) : (Nat → Node) → Prop
  | free {i : Nat} (ht : (N i).type ≠ 0) (hn : (N i).nlink = 0) : Fades N (setAt N i .free)
  | write {i : Nat} (ht : (N i).type ≠ 0) (hd : (N i).type ≠ T_DIR) (size : Nat)
      (data : Nat → UInt8) : Fades N (setAt N i { N i with size := size, data := data })

/-- A directory without links that gets an entry is in use, and not freed. -/
def Stays (N N₁ N' : Nat → Node) : Prop :=
  ∀ d s, (N d).type = T_DIR → (N d).nlink = 0 → ((N d).entry s).inum = 0 →
    ((N₁ d).entry s).inum ≠ 0 → N' d = N₁ d

/-- What a system call other than chmod does to the files. -/
def Effect (N N' : Nat → Node) : Prop :=
  ∃ N₁, (N₁ = N ∨ Renames N N₁) ∧ Relation.ReflTransGen Fades N₁ N' ∧ Stays N N₁ N'

end Xv6
