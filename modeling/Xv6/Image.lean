import Xv6.Fs

namespace Xv6

/-- The superblock mkfs writes. -/
def mkfsSb : Superblock := ⟨2000, 1954, 200, 30, 2, 32, 45⟩

def rootDinode : Dinode := ⟨T_DIR, 0, 0, 1, BSIZE, 46 :: List.replicate NDIRECT 0⟩

/-- Block 1 as mkfs writes it. -/
def sbBlock : Block :=
  ByteArr.zero.put 0 ([0x10203040, 2000, 1954, 200, 30, 2, 32, 45].flatMap (Bytes.le 4))

/-- The entries . and .. of the root. -/
def rootDots : List UInt8 :=
  Dirent.encode ⟨ROOTINO, strncpy dot⟩ ++ Dirent.encode ⟨ROOTINO, strncpy dotdot⟩

/-- The image mkfs makes of one file `f` of eight zero bytes. -/
def fileImage : Disk := fun n =>
  if n = 1 then sbBlock
  else if n = 32 then
    putDinode (putDinode .zero ROOTINO rootDinode) 2 ⟨T_FILE, 0, 0, 1, 8, 47 :: List.replicate NDIRECT 0⟩
  else if n = 45 then ByteArr.zero.put 0 (List.replicate 6 0xFF)
  else if n = 46 then ByteArr.zero.put 0 (rootDots ++ Dirent.encode ⟨2, strncpy [102]⟩)
  else .zero

end Xv6
