/-
  The data of the ext2 driver (`filesystem/ext2.h`, `drivers/disk.h`): blocks and the disk,
  the records of the on-disk format, the driver state and its requests.

  The macros of the header, as they expand:
    `BLOCK_SIZE` 512, `sizeof(struct EXT2Inode)` 70, `INODES_PER_TABLE` 512 / 70 = 7,
    `sizeof(struct EXT2BlockGroupDescriptor)` 32, `GROUPS_COUNT` (512 / 32) / 2u = 8,
    `BLOCKS_PER_GROUP` (4194304u / 512 / (512 / 32) / 2u) = 256 (the macro inside it has no
    outer parentheses), `INODES_TABLE_BLOCK_COUNT` 16, `INODES_PER_GROUP` 7 * 16 = 112,
    `sizeof(struct EXT2DirectoryEntry)` 9.

  Locals of the C functions are `Nat`; what is stored in a field of a struct has the
  field's width. `read_blocks` and `write_blocks` move one block faithfully, which is the
  only way the driver calls them. A local `struct BlockBuffer` is 8192 bytes of which
  `read_blocks` fills 512: the rest is whatever the stack holds, the component `stack` of
  the state.
-/
import LossOs.Lib.Bytes

namespace LossOs.Ext2

open LossOs.Lib

/-- One block of the disk. -/
abbrev Block := Fin 512 → UInt8

/-- The disk, by logical block address. -/
abbrev Disk := Nat → Block

/-- The bytes of a block as a memory (nothing but zeros behind it). -/
def Block.mem (b : Block) : Mem := fun o => if h : o < 512 then b ⟨o, h⟩ else 0

/-- The first 512 bytes of a buffer, as `write_blocks` sends them. -/
def blockOf (buf : Mem) : Block := fun o => buf o

/-- `struct EXT2Superblock`. -/
structure EXT2Superblock where
  sInodesCount : UInt32
  sBlocksCount : UInt32
  sRBlocksCount : UInt32
  sFreeBlocksCount : UInt32
  sFreeInodesCount : UInt32
  sFirstDataBlock : UInt32
  sFirstIno : UInt32
  sBlocksPerGroup : UInt32
  sFragsPerGroup : UInt32
  sInodesPerGroup : UInt32
  sMagic : UInt16
  sPreallocBlocks : UInt8
  sPreallocDirBlocks : UInt8
  deriving DecidableEq, Repr

/-- `struct EXT2BlockGroupDescriptor`; `bgReserved` is its last twelve bytes. -/
structure EXT2BlockGroupDescriptor where
  bgBlockBitmap : UInt32
  bgInodeBitmap : UInt32
  bgInodeTable : UInt32
  bgFreeBlocksCount : UInt16
  bgFreeInodesCount : UInt16
  bgUsedDirsCount : UInt16
  bgPad : UInt16
  bgReserved0 : UInt32
  bgReserved1 : UInt32
  bgReserved2 : UInt32
  deriving DecidableEq, Repr

/-- The 44 bytes of the packed superblock, laid over `m`. -/
def EXT2Superblock.store (sb : EXT2Superblock) (m : Mem) : Mem :=
  let m := wr32 m 0 sb.sInodesCount.toNat
  let m := wr32 m 4 sb.sBlocksCount.toNat
  let m := wr32 m 8 sb.sRBlocksCount.toNat
  let m := wr32 m 12 sb.sFreeBlocksCount.toNat
  let m := wr32 m 16 sb.sFreeInodesCount.toNat
  let m := wr32 m 20 sb.sFirstDataBlock.toNat
  let m := wr32 m 24 sb.sFirstIno.toNat
  let m := wr32 m 28 sb.sBlocksPerGroup.toNat
  let m := wr32 m 32 sb.sFragsPerGroup.toNat
  let m := wr32 m 36 sb.sInodesPerGroup.toNat
  let m := wr16 m 40 sb.sMagic.toNat
  let m := wr8 m 42 sb.sPreallocBlocks
  wr8 m 43 sb.sPreallocDirBlocks

def EXT2Superblock.load (m : Mem) : EXT2Superblock where
  sInodesCount := UInt32.ofNat (rd32 m 0)
  sBlocksCount := UInt32.ofNat (rd32 m 4)
  sRBlocksCount := UInt32.ofNat (rd32 m 8)
  sFreeBlocksCount := UInt32.ofNat (rd32 m 12)
  sFreeInodesCount := UInt32.ofNat (rd32 m 16)
  sFirstDataBlock := UInt32.ofNat (rd32 m 20)
  sFirstIno := UInt32.ofNat (rd32 m 24)
  sBlocksPerGroup := UInt32.ofNat (rd32 m 28)
  sFragsPerGroup := UInt32.ofNat (rd32 m 32)
  sInodesPerGroup := UInt32.ofNat (rd32 m 36)
  sMagic := UInt16.ofNat (rd16 m 40)
  sPreallocBlocks := m 42
  sPreallocDirBlocks := m 43

/-- The 32 bytes of the packed descriptor, laid over `m` from `o` on. -/
def EXT2BlockGroupDescriptor.store (d : EXT2BlockGroupDescriptor) (m : Mem) (o : Nat) : Mem :=
  let m := wr32 m o d.bgBlockBitmap.toNat
  let m := wr32 m (o + 4) d.bgInodeBitmap.toNat
  let m := wr32 m (o + 8) d.bgInodeTable.toNat
  let m := wr16 m (o + 12) d.bgFreeBlocksCount.toNat
  let m := wr16 m (o + 14) d.bgFreeInodesCount.toNat
  let m := wr16 m (o + 16) d.bgUsedDirsCount.toNat
  let m := wr16 m (o + 18) d.bgPad.toNat
  let m := wr32 m (o + 20) d.bgReserved0.toNat
  let m := wr32 m (o + 24) d.bgReserved1.toNat
  wr32 m (o + 28) d.bgReserved2.toNat

def EXT2BlockGroupDescriptor.load (m : Mem) (o : Nat) : EXT2BlockGroupDescriptor where
  bgBlockBitmap := UInt32.ofNat (rd32 m o)
  bgInodeBitmap := UInt32.ofNat (rd32 m (o + 4))
  bgInodeTable := UInt32.ofNat (rd32 m (o + 8))
  bgFreeBlocksCount := UInt16.ofNat (rd16 m (o + 12))
  bgFreeInodesCount := UInt16.ofNat (rd16 m (o + 14))
  bgUsedDirsCount := UInt16.ofNat (rd16 m (o + 16))
  bgPad := UInt16.ofNat (rd16 m (o + 18))
  bgReserved0 := UInt32.ofNat (rd32 m (o + 20))
  bgReserved1 := UInt32.ofNat (rd32 m (o + 24))
  bgReserved2 := UInt32.ofNat (rd32 m (o + 28))

/-- The driver state: the disk, the two cached structures, and the bytes that a local
    `BlockBuffer` of the current call holds before anything is stored in it. The entries
    of `bgdtCache` from index 8 on stand for whatever memory follows the table. -/
structure Fs where
  disk : Disk
  superBlock : EXT2Superblock
  bgdtCache : Nat → EXT2BlockGroupDescriptor
  stack : Mem

/-- `struct EXT2DriverRequest`. -/
structure EXT2DriverRequest where
  buf : Mem
  name : Mem
  nameLen : UInt8
  parentInode : UInt32
  bufferSize : UInt32
  isDirectory : Bool

/-! ## The fields of an inode, seen from the address of its slot -/

def iMode (node : Mem) : Nat := rd16 node 0
def iSize (node : Mem) : Nat := rd32 node 2
def iBlocks (node : Mem) : Nat := rd32 node 6
def iBlock (node : Mem) (i : Nat) : Nat := rd32 node (10 + 4 * i)

def setIMode (node : Mem) (v : Nat) : Mem := wr16 node 0 v
def setISize (node : Mem) (v : Nat) : Mem := wr32 node 2 v
def setIBlocks (node : Mem) (v : Nat) : Mem := wr32 node 6 v
def setIBlock (node : Mem) (i v : Nat) : Mem := wr32 node (10 + 4 * i) v

/-! ## The fields of a directory record at offset `o` of a block -/

def entryInode (m : Mem) (o : Nat) : Nat := rd32 m o
def entryRecLen (m : Mem) (o : Nat) : Nat := rd16 m (o + 4)
def entryNameLen (m : Mem) (o : Nat) : Nat := rd16 m (o + 6)
def entryFileType (m : Mem) (o : Nat) : Nat := (m (o + 8)).toNat

/-- The number of a slot of a pointer block. -/
def ptr (m : Mem) (j : Nat) : Nat := rd32 m (4 * j)

end LossOs.Ext2
