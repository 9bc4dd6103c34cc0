/-
  The functions of `filesystem/ext2.c`, in the order of the source.

  State passing: a function that changes the driver state takes it last and returns it
  last. A pointer to an inode is the memory seen from the inode's slot. A loop with a
  constant bound is a recursion on the turns that are left, a `while` over the records of a
  directory block recurses on the bytes that are left in the block, and a search loop that
  is left at its first hit is a `findSome?`.
-/
import LossOs.Lib.Bitmap
import LossOs.Ext2.Types

namespace LossOs.Ext2

open LossOs.Lib

/-! ## Disk and state -/

/-- `read_blocks(&buf, lba, 1)` into a fresh local buffer. -/
def Fs.readBlocks (fs : Fs) (lba : Nat) : Mem := fun o =>
  if h : o < 512 then fs.disk lba ⟨o, h⟩ else fs.stack o

/-- `write_blocks(&buf, lba, 1)`. -/
def Fs.writeBlocks (fs : Fs) (lba : Nat) (buf : Mem) : Fs :=
  { fs with disk := Function.update fs.disk lba (blockOf buf) }

/-- Change the cached descriptor `bg`. -/
def Fs.modifyDesc (fs : Fs) (bg : Nat)
    (f : EXT2BlockGroupDescriptor → EXT2BlockGroupDescriptor) : Fs :=
  { fs with bgdtCache := Function.update fs.bgdtCache bg (f (fs.bgdtCache bg)) }

/-- `memset(&buf, 0, BLOCK_SIZE)` on a fresh local buffer. -/
def Fs.zeroBuf (fs : Fs) : Mem := fill fs.stack 0 0 512

/-- `memcmp`: the sign of the first difference in `n` bytes. -/
def memcmp (s1 s2 : Mem) : Nat → Int
  | 0 => 0
  | n + 1 =>
      if s1 0 < s2 0 then -1
      else if s1 0 > s2 0 then 1
      else memcmp (view s1 1) (view s2 1) n

/-! ## Records and inode numbers -/

def fsSignatureText : List Char :=
  ['C', 'o', 'u', 'r', 's', 'e', ' ', ' ', ' ', ' ', ' ', ' ', ' ', ' ', ' ', ' ',
   'D', 'e', 's', 'i', 'g', 'n', 'e', 'd', ' ', 'b', 'y', ' ', ' ', ' ', ' ', ' ',
   'L', 'a', 'b', ' ', 'S', 'i', 's', 't', 'e', 'r', ' ', 'I', 'T', 'B', ' ', ' ',
   'M', 'a', 'd', 'e', ' ', 'w', 'i', 't', 'h', ' ', '<', '3', ' ', ' ', ' ', ' ',
   '-', '-', '-', '-', '-', '-', '-', '-', '-', '-', '-', '2', '0', '2', '5', '\n']

/-- `fs_signature`: the text, zeros, and `Ok` in the last two bytes. -/
def fsSignature : Mem := fun o =>
  if o = 510 then 79 else if o = 511 then 107
  else (fsSignatureText.map fun c => UInt8.ofNat c.toNat).getD o 0

/-- `get_entry_record_len`: header and name, rounded up to 4. -/
def getEntryRecordLen (nameLen : UInt8) : Nat :=
  let size := 9 + nameLen.toNat
  let recLen := (size + 3) / 4 * 4
  if recLen = 0 then 512 else recLen

def inodeToBgd (inode : Nat) : Nat := if inode = 0 then 0 else (inode - 1) / 112

def inodeToLocal (inode : Nat) : Nat := if inode = 0 then 0 else (inode - 1) % 112

/-- The inode-table block that holds `inode`. -/
def Fs.inodeBlock (fs : Fs) (inode : Nat) : Nat :=
  (fs.bgdtCache (inodeToBgd inode)).bgInodeTable.toNat + inodeToLocal inode / 7

/-- The address of the slot of `inode` in its inode-table block. -/
def slotOffset (inode : Nat) : Nat := 70 * (inodeToLocal inode % 7)

/-- `sync_metadata`. -/
def syncMetadata (fs : Fs) : Fs :=
  let buf := fs.superBlock.store fs.stack
  let fs := fs.writeBlocks 1 buf
  let buf := (List.range 8).foldl (fun buf i => (fs.bgdtCache i).store buf (32 * i)) buf
  fs.writeBlocks 2 buf

/-! ## The block search

  The loops over groups, bytes and bits that hand out a block stand five times in the
  source with the same text; `write` has a sixth copy that differs (`growSearch`). -/

/-- What a search does with the clear bit `idx` of group `bg`: mark it, write the bitmap
    back and lower the two counters. -/
def takeBit (bg idx : Nat) (bmp : Mem) (fs : Fs) : Fs :=
  let fs := fs.writeBlocks (fs.bgdtCache bg).bgBlockBitmap.toNat (setBit bmp idx)
  let fs := fs.modifyDesc bg fun d => { d with bgFreeBlocksCount := d.bgFreeBlocksCount - 1 }
  { fs with superBlock :=
      { fs.superBlock with sFreeBlocksCount := fs.superBlock.sFreeBlocksCount - 1 } }

/-- The search from group `pref` on: the block it hands out, or `none` when `found` stays
    false. -/
def searchBlock (pref : Nat) (fs : Fs) : Option (Nat × Fs) :=
  (List.range' pref (8 - pref)).findSome? fun bg =>
    if (fs.bgdtCache bg).bgFreeBlocksCount > 0 then
      let bmp := fs.readBlocks (fs.bgdtCache bg).bgBlockBitmap.toNat
      (firstClear bmp 256).map fun idx => (bg * 256 + idx, takeBit bg idx bmp fs)
    else none

/-! ## Directories -/

/-- The first block of a directory: `.` and `..`, the second spanning the rest. -/
def dirTable (inode parentInode : Nat) (buf : Mem) : Mem :=
  let buf := wr32 buf 0 inode
  let buf := wr16 buf 6 1
  let buf := wr8 buf 8 2
  let buf := wr16 buf 4 (getEntryRecordLen 1)
  let buf := wr8 buf 9 46
  let e2 := entryRecLen buf 0
  let buf := wr32 buf e2 parentInode
  let buf := wr16 buf (e2 + 6) 2
  let buf := wr8 buf (e2 + 8) 2
  let buf := wr16 buf (e2 + 4) (512 - entryRecLen buf 0)
  let buf := wr8 buf (e2 + 9) 46
  wr8 buf (e2 + 10) 46

/-- The block number used when the search fails: the first data block of the group. -/
def fallbackBlock (bgd : Nat) : Nat := (if bgd = 0 then 5 else bgd * 256 + 2) + 16

/-- The block `init_directory_table` formats. -/
def pickDirBlock (bgd : Nat) (fs : Fs) : Nat × Fs :=
  if (fs.bgdtCache 0).bgBlockBitmap ≠ 0 then
    match searchBlock bgd fs with
    | some r => r
    | none => (fallbackBlock bgd, fs)
  else (fallbackBlock bgd, fs)

/-- `init_directory_table`. -/
def initDirectoryTable (node : Mem) (inode parentInode : Nat) (fs : Fs) : Mem × Fs :=
  let (dirBlock, fs) := pickDirBlock (inodeToBgd inode) fs
  let node := setIMode node 0x4000
  let node := setISize node 512
  let node := setIBlocks node 1
  let node := setIBlock node 0 dirBlock
  let fs := fs.writeBlocks dirBlock (dirTable inode parentInode fs.zeroBuf)
  (node, if (fs.bgdtCache 0).bgBlockBitmap ≠ 0 then syncMetadata fs else fs)

/-! ## Formatting and mounting -/

/-- `is_empty_storage`: only the first two bytes of the signature are compared. -/
def isEmptyStorage (fs : Fs) : Bool := !(rd16 (fs.readBlocks 0) 0 == rd16 fsSignature 0)

/-- The superblock `create_ext2` writes. -/
def newSuperblock : EXT2Superblock where
  sInodesCount := 8 * 112
  sBlocksCount := 4194304 / 512
  sRBlocksCount := 0
  sFreeBlocksCount :=
    if (4194304 / 512 : UInt32) > 148 then 4194304 / 512 - 148 else 0
  sFreeInodesCount := 8 * 112 - 1
  sFirstDataBlock := 1
  sFirstIno := 1
  sBlocksPerGroup := 256
  sFragsPerGroup := 256
  sInodesPerGroup := 112
  sMagic := 0xEF53
  sPreallocBlocks := 0
  sPreallocDirBlocks := 0

/-- The descriptor `create_ext2` writes for group `i`. -/
def newDescriptor (i : Nat) : EXT2BlockGroupDescriptor :=
  if i = 0 then
    { bgBlockBitmap := 3, bgInodeBitmap := 4, bgInodeTable := 5,
      bgFreeBlocksCount := 256 - 22, bgFreeInodesCount := 112 - 1, bgUsedDirsCount := 1,
      bgPad := 0, bgReserved0 := 0, bgReserved1 := 0, bgReserved2 := 0 }
  else
    let base := UInt32.ofNat (i * 256)
    { bgBlockBitmap := base + 0, bgInodeBitmap := base + 1, bgInodeTable := base + 2,
      bgFreeBlocksCount := 256 - 18, bgFreeInodesCount := 112, bgUsedDirsCount := 0,
      bgPad := 0, bgReserved0 := 0, bgReserved1 := 0, bgReserved2 := 0 }

/-- The first `n` bits of `buf` set, one after the other. -/
def setBits (buf : Mem) (n : Nat) : Mem := (List.range n).foldl setBit buf

/-- `create_ext2`. -/
def createExt2 (fs : Fs) : Fs :=
  let buf := blit fs.zeroBuf 0 fsSignature 512
  let fs := fs.writeBlocks 0 buf
  let buf := newSuperblock.store (fill buf 0 0 512)
  let fs := fs.writeBlocks 1 buf
  let buf := fill buf 0 0 256
  let buf := (List.range 8).foldl (fun buf i => (newDescriptor i).store buf (32 * i)) buf
  let fs := fs.writeBlocks 2 buf
  let buf := fill buf 0 0 512
  let (inode, fs) := initDirectoryTable buf 1 1 fs
  let fs := fs.writeBlocks 5 (blit buf 0 inode 70)
  let zero := fill buf 0 0 512
  let fs := (List.range' 6 15).foldl (fun fs blk => fs.writeBlocks blk zero) fs
  let fs := fs.writeBlocks 3 (setBits zero 22)
  let fs := fs.writeBlocks 4 (setBits zero 1)
  (List.range' 1 7).foldl (fun fs i =>
    (fs.writeBlocks (i * 256 + 0) (setBits zero 18)).writeBlocks (i * 256 + 1) zero) fs

/-- `initialize_filesystem_ext2`. -/
def initializeFilesystemExt2 (fs : Fs) : Fs :=
  let fs := if isEmptyStorage fs then createExt2 fs else fs
  let sb := EXT2Superblock.load (fs.readBlocks 1)
  let buf := fs.readBlocks 2
  { fs with
    superBlock := sb
    bgdtCache := fun i => if i < 8 then EXT2BlockGroupDescriptor.load buf (32 * i)
      else fs.bgdtCache i }

/-- `is_directory_empty`: two `rec_len` hops in the first block, then the inode number that
    lies there. A hop may leave the 512 bytes that were read. -/
def isDirectoryEmpty (inode : Nat) (fs : Fs) : Bool :=
  let node := view (fs.readBlocks (fs.inodeBlock inode)) (slotOffset inode)
  if iMode node &&& 0x4000 = 0 then false
  else
    let buf := fs.readBlocks (iBlock node 0)
    let entry := entryRecLen buf 0
    let entry := entry + entryRecLen buf entry
    entryInode buf entry == 0

/-! ## `read` -/

/-- Does the record at `off` carry the requested name? -/
def nameMatches (request : EXT2DriverRequest) (m : Mem) (off : Nat) : Bool :=
  entryNameLen m off == request.nameLen.toNat &&
    memcmp (view m (off + 9)) request.name (entryNameLen m off) == 0

/-- The record loop of `read`: inode and type of the first live record of the name. -/
def lookupBlock (request : EXT2DriverRequest) (dirBuf : Mem) (offset : Nat) :
    Option (Nat × Nat) :=
  if _h : offset < 512 then
    if entryInode dirBuf offset ≠ 0 ∧ nameMatches request dirBuf offset then
      some (entryInode dirBuf offset, entryFileType dirBuf offset)
    else if _h' : entryRecLen dirBuf offset = 0 then none
    else lookupBlock request dirBuf (offset + entryRecLen dirBuf offset)
  else none
  termination_by 512 - offset

/-- The block loop of `read`, which stops at a zero pointer. -/
def lookupDir (request : EXT2DriverRequest) (parent : Mem) (fs : Fs) : Option (Nat × Nat) :=
  (((List.range (iBlocks parent)).map (iBlock parent)).takeWhile (· ≠ 0)).findSome?
    fun blockId => lookupBlock request (fs.readBlocks blockId) 0

/-- `read_directory`, whose search has the text of that of `read`: the return code and the
    caller's buffer afterwards. One block is read, and `i_size` bytes are copied. -/
def readDirectory (request : EXT2DriverRequest) (fs : Fs) : Int × Mem :=
  let parentInode := request.parentInode.toNat
  if parentInode = 0 then (-1, request.buf)
  else
    let parent := view (fs.readBlocks (fs.inodeBlock parentInode)) (slotOffset parentInode)
    if iMode parent &&& 0x4000 = 0 then (-1, request.buf)
    else match lookupDir request parent fs with
      | none => (2, request.buf)
      | some (entryInode, entryFileType) =>
          if entryFileType ≠ 2 then (1, request.buf)
          else
            let target := view (fs.readBlocks (fs.inodeBlock entryInode)) (slotOffset entryInode)
            if iBlocks target = 0 then (-1, request.buf)
            else if iBlock target 0 = 0 then (-1, request.buf)
            else if request.bufferSize.toNat < iSize target then (-1, request.buf)
            else (0, blit request.buf 0 (fs.readBlocks (iBlock target 0)) (iSize target))

/-- `to_read`, `copied` and the caller's buffer. -/
structure Copy where
  toRead : Nat
  copied : Nat
  out : Mem

/-- The body of the copy loops. -/
def copyBlock (fs : Fs) (blockId : Nat) (st : Copy) : Copy :=
  let copyLen := if st.toRead > 512 then 512 else st.toRead
  { toRead := st.toRead - copyLen
    copied := st.copied + copyLen
    out := blit st.out st.copied (fs.readBlocks blockId) copyLen }

/-- One copy loop: at most `k` more blocks, from pointer `i` on. -/
def copyPtrs (fs : Fs) (ptrs : Nat → Nat) : (k i : Nat) → Copy → Copy
  | 0, _, st => st
  | k + 1, i, st =>
      if st.toRead > 0 then
        if ptrs i = 0 then st else copyPtrs fs ptrs k (i + 1) (copyBlock fs (ptrs i) st)
      else st

/-- The outer loop of the double indirect part. -/
def copyDouble (fs : Fs) (dblPtrs : Nat → Nat) : (k i : Nat) → Copy → Copy
  | 0, _, st => st
  | k + 1, i, st =>
      if st.toRead > 0 then
        if dblPtrs i = 0 then st
        else copyDouble fs dblPtrs k (i + 1)
          (copyPtrs fs (ptr (fs.readBlocks (dblPtrs i))) 128 0 st)
      else st

/-- The three copy loops. -/
def copyFile (fs : Fs) (node : Mem) (out : Mem) : Copy :=
  let st := copyPtrs fs (iBlock node) 12 0 ⟨iSize node, 0, out⟩
  let st := if st.toRead > 0 ∧ iBlock node 12 ≠ 0 then
    copyPtrs fs (ptr (fs.readBlocks (iBlock node 12))) 128 0 st else st
  if st.toRead > 0 ∧ iBlock node 13 ≠ 0 then
    copyDouble fs (ptr (fs.readBlocks (iBlock node 13))) 128 0 st else st

/-- `read`: the return code and the caller's buffer afterwards. -/
def read (request : EXT2DriverRequest) (fs : Fs) : Int × Mem :=
  let parentInode := request.parentInode.toNat
  if parentInode = 0 then (-1, request.buf)
  else
    let parent := view (fs.readBlocks (fs.inodeBlock parentInode)) (slotOffset parentInode)
    if iMode parent &&& 0x4000 = 0 then (-1, request.buf)
    else match lookupDir request parent fs with
      | none => (2, request.buf)
      | some (fileInode, fileType) =>
          if fileType ≠ 1 then (1, request.buf)
          else
            let node := view (fs.readBlocks (fs.inodeBlock fileInode)) (slotOffset fileInode)
            if request.bufferSize.toNat < iSize node then (-1, request.buf)
            else (0, (copyFile fs node request.buf).out)

/-! ## `allocate_node`, `allocate_node_blocks`, `sync_node` -/

/-- What `allocate_node` does with the clear bit `idx` of group `i`: mark it, write the bitmap
    back, lower the two counters and flush. -/
def takeInode (i idx : Nat) (bmp : Mem) (fs : Fs) : Fs :=
  let fs := fs.writeBlocks (fs.bgdtCache i).bgInodeBitmap.toNat (setBit bmp idx)
  let fs := fs.modifyDesc i fun d => { d with bgFreeInodesCount := d.bgFreeInodesCount - 1 }
  syncMetadata { fs with superBlock :=
    { fs.superBlock with sFreeInodesCount := fs.superBlock.sFreeInodesCount - 1 } }

/-- `allocate_node`: 0 when there is no free inode. -/
def allocateNode (fs : Fs) : Nat × Fs :=
  ((List.range 8).findSome? fun i =>
    if (fs.bgdtCache i).bgFreeInodesCount > 0 then
      let bmp := fs.readBlocks (fs.bgdtCache i).bgInodeBitmap.toNat
      (firstClear bmp 112).map fun idx => (i * 112 + idx + 1, takeInode i idx bmp fs)
    else none).getD (0, fs)

/-- The data buffer for block number `allocated` of a file: a full block, or what is left
    of `i_size` in the last one. -/
def dataBuf (data node : Mem) (allocated : Nat) (fs : Fs) : Mem :=
  let toCopy := if allocated = iBlocks node - 1 then iSize node % 512 else 512
  let toCopy := if toCopy = 0 then 512 else toCopy
  blit fs.zeroBuf 0 (view data (allocated * 512)) toCopy

/-- The loop over the direct pointers, with `k` turns left. -/
def allocDirect (data : Mem) (pref : Nat) : (k i : Nat) → (node : Mem) → (allocated : Nat) →
    Fs → Mem × Nat × Fs
  | 0, _, node, allocated, fs => (node, allocated, fs)
  | k + 1, i, node, allocated, fs =>
      if allocated < iBlocks node then
        match searchBlock pref fs with
        | none => (node, allocated, fs)
        | some (blockNum, fs) =>
            let node := setIBlock node i blockNum
            allocDirect data pref k (i + 1) node (allocated + 1)
              (fs.writeBlocks blockNum (dataBuf data node allocated fs))
      else (node, allocated, fs)

/-- The loop that fills one pointer block, with `k` turns left. -/
def allocPtrs (data node : Mem) (pref : Nat) : (k ptrIdx : Nat) → (ptrBuf : Mem) →
    (allocated : Nat) → Fs → Mem × Nat × Fs
  | 0, _, ptrBuf, allocated, fs => (ptrBuf, allocated, fs)
  | k + 1, ptrIdx, ptrBuf, allocated, fs =>
      if allocated < iBlocks node then
        match searchBlock pref fs with
        | none => (ptrBuf, allocated, fs)
        | some (blockNum, fs) =>
            allocPtrs data node pref k (ptrIdx + 1) (wr32 ptrBuf (ptrIdx * 4) blockNum)
              (allocated + 1) (fs.writeBlocks blockNum (dataBuf data node allocated fs))
      else (ptrBuf, allocated, fs)

/-- The loop that fills the double indirect block, with `k` turns left. -/
def allocDouble (data node : Mem) (pref : Nat) : (k dblIdx : Nat) → (dblBuf : Mem) →
    (allocated : Nat) → Fs → Mem × Nat × Fs
  | 0, _, dblBuf, allocated, fs => (dblBuf, allocated, fs)
  | k + 1, dblIdx, dblBuf, allocated, fs =>
      if allocated < iBlocks node then
        match searchBlock pref fs with
        | none => (dblBuf, allocated, fs)
        | some (indBlock, fs) =>
            let dblBuf := wr32 dblBuf (dblIdx * 4) indBlock
            let (ptrBuf, allocated, fs) :=
              allocPtrs data node pref 128 0 fs.zeroBuf allocated fs
            allocDouble data node pref k (dblIdx + 1) dblBuf allocated
              (fs.writeBlocks indBlock ptrBuf)
      else (dblBuf, allocated, fs)

/-- The single indirect part. A pointer block number 0 counts as none, although the search
    that returned it has stored it in the inode. -/
def allocSingle (data : Mem) (pref : Nat) (node : Mem) (allocated : Nat) (fs : Fs) :
    Mem × Nat × Fs :=
  if allocated < iBlocks node then
    match searchBlock pref fs with
    | none => (node, allocated, fs)
    | some (pointerBlock, fs) =>
        let node := setIBlock node 12 pointerBlock
        if pointerBlock ≠ 0 then
          let (ptrBuf, allocated, fs) :=
            allocPtrs data node pref 128 0 fs.zeroBuf allocated fs
          (node, allocated, fs.writeBlocks pointerBlock ptrBuf)
        else (node, allocated, fs)
  else (node, allocated, fs)

/-- The double indirect part. -/
def allocDoubleIndirect (data : Mem) (pref : Nat) (node : Mem) (allocated : Nat) (fs : Fs) :
    Mem × Nat × Fs :=
  if allocated < iBlocks node then
    match searchBlock pref fs with
    | none => (node, allocated, fs)
    | some (dblBlock, fs) =>
        let node := setIBlock node 13 dblBlock
        if dblBlock ≠ 0 then
          let (dblBuf, allocated, fs) :=
            allocDouble data node pref 128 0 fs.zeroBuf allocated fs
          (node, allocated, fs.writeBlocks dblBlock dblBuf)
        else (node, allocated, fs)
  else (node, allocated, fs)

/-- `allocate_node_blocks`: the node with its pointers, and nothing that tells how far the
    allocation came. -/
def allocateNodeBlocks (data node : Mem) (pref : Nat) (fs : Fs) : Mem × Fs :=
  let (node, allocated, fs) := allocDirect data pref 12 0 node 0 fs
  let (node, allocated, fs) := allocSingle data pref node allocated fs
  let (node, _, fs) := allocDoubleIndirect data pref node allocated fs
  (node, syncMetadata fs)

/-- `sync_node`. -/
def syncNode (node : Mem) (inode : Nat) (fs : Fs) : Fs :=
  if inode = 0 then fs
  else
    let buf := fs.readBlocks (fs.inodeBlock inode)
    fs.writeBlocks (fs.inodeBlock inode) (blit buf (slotOffset inode) node 70)

/-! ## `write` -/

/-- What the pass over a directory block ends with. -/
inductive Scan where
  | done
  | duplicate
  | hole (off : Nat)
  deriving DecidableEq, Repr

/-- The record loop of `write`: the first record that has the name, or that is live with a
    hole for the new record behind it. -/
def scanBlock (request : EXT2DriverRequest) (dbuf : Mem) (off : Nat) : Scan :=
  if _h : off < 512 then
    let actual := getEntryRecordLen (UInt8.ofNat (entryNameLen dbuf off))
    if entryInode dbuf off ≠ 0 ∧ nameMatches request dbuf off then .duplicate
    else if entryInode dbuf off ≠ 0 ∧ entryRecLen dbuf off > actual ∧
        entryRecLen dbuf off - actual ≥ getEntryRecordLen request.nameLen then .hole off
    else if _h' : entryRecLen dbuf off = 0 then .done
    else scanBlock request dbuf (off + entryRecLen dbuf off)
  else .done
  termination_by 512 - off

/-- The block loop of `write`: the block in which a pass does not run to its end, and what
    it found there. Zero pointers are skipped. -/
def scanDir (request : EXT2DriverRequest) (parent : Mem) (fs : Fs) : Option (Nat × Scan) :=
  ((List.range (iBlocks parent)).map (iBlock parent)).findSome? fun blk =>
    if blk = 0 then none
    else match scanBlock request (fs.readBlocks blk) 0 with
      | .done => none
      | r => some (blk, r)

/-- `is_dir` of `write`. -/
def isDirRequest (request : EXT2DriverRequest) : Bool :=
  request.bufferSize == 0 && request.isDirectory

/-- Load the slot of the new inode and build the file or directory in it. -/
def buildNode (request : EXT2DriverRequest) (newIno : Nat) (fs : Fs) : Mem × Fs :=
  let newBgd := inodeToBgd newIno
  let ni := view (fs.readBlocks (fs.inodeBlock newIno)) (slotOffset newIno)
  if isDirRequest request then
    let (ni, fs) := initDirectoryTable ni newIno request.parentInode.toNat fs
    (ni, fs.modifyDesc newBgd fun d => { d with bgUsedDirsCount := d.bgUsedDirsCount + 1 })
  else
    let ni := setIMode ni 0x8000
    let ni := setISize ni request.bufferSize.toNat
    let ni := setIBlocks ni ((request.bufferSize + 512 - 1) / 512).toNat
    allocateNodeBlocks request.buf ni newBgd fs

/-- `buildNode`, then `sync_node`. -/
def createNode (request : EXT2DriverRequest) (newIno : Nat) (fs : Fs) : Fs :=
  let (ni, fs) := buildNode request newIno fs
  syncNode ni newIno fs

def requestFileType (request : EXT2DriverRequest) : UInt8 :=
  if isDirRequest request then 2 else 1

/-- The new record, put behind the one at `off`, which shrinks to its own length. -/
def insertEntry (request : EXT2DriverRequest) (newIno off : Nat) (dbuf : Mem) : Mem :=
  let actual := getEntryRecordLen (UInt8.ofNat (entryNameLen dbuf off))
  let hole := entryRecLen dbuf off - actual
  let newOff := off + actual
  let dbuf := wr32 dbuf newOff newIno
  let dbuf := wr16 dbuf (newOff + 6) request.nameLen.toNat
  let dbuf := wr8 dbuf (newOff + 8) (requestFileType request)
  let dbuf := wr16 dbuf (newOff + 4) hole
  let dbuf := blit dbuf (newOff + 9) request.name request.nameLen.toNat
  wr16 dbuf (off + 4) actual

/-- `write` with a hole behind the record at `off` of block `blk`. -/
def writeHole (request : EXT2DriverRequest) (blk off : Nat) (fs : Fs) : Int × Fs :=
  let dbuf := fs.readBlocks blk
  let (newIno, fs) := allocateNode fs
  if newIno = 0 then (-1, fs)
  else
    let fs := createNode request newIno fs
    let fs := fs.writeBlocks blk (insertEntry request newIno off dbuf)
    (0, syncMetadata fs)

/-- The byte and bit loops of the block search in `write`. The loops are left when
    `newblock` is not 0, so after block 0 they go on with the next byte. -/
def growGroup (bg : Nat) (fs : Fs) : Nat × Fs :=
  let bmp := fs.readBlocks (fs.bgdtCache bg).bgBlockBitmap.toNat
  match firstClear bmp 256 with
  | none => (0, fs)
  | some idx =>
      let fs := takeBit bg idx bmp fs
      if bg * 256 + idx ≠ 0 then (bg * 256 + idx, fs)
      else
        let bmp := setBit bmp idx
        match firstClearFrom 1 bmp 256 with
        | none => (0, fs)
        | some idx => (bg * 256 + idx, takeBit bg idx bmp fs)

/-- The group loop of the block search in `write`: 0 when there is no block. -/
def growSearch : List Nat → Fs → Nat × Fs
  | [], fs => (0, fs)
  | bg :: bgs, fs =>
      if (fs.bgdtCache bg).bgFreeBlocksCount ≠ 0 then
        let (newblock, fs) := growGroup bg fs
        if newblock ≠ 0 then (newblock, fs) else growSearch bgs fs
      else growSearch bgs fs

/-- The single record of an appended directory block. -/
def singleEntry (request : EXT2DriverRequest) (newIno : Nat) (dbuf : Mem) : Mem :=
  let dbuf := wr32 dbuf 0 newIno
  let dbuf := wr16 dbuf 6 request.nameLen.toNat
  let dbuf := wr8 dbuf 8 (requestFileType request)
  let dbuf := wr16 dbuf 4 512
  blit dbuf 9 request.name request.nameLen.toNat

/-- The parent's inode-table block with `newblock` appended to the parent, whose slot is at
    `slot`. The index `i_blocks` is not checked against the 15 entries of `i_block`. -/
def appendBlock (buf : Mem) (slot newblock : Nat) : Mem :=
  let n := iBlocks (view buf slot)
  let buf := wr32 buf (slot + (10 + 4 * n)) newblock
  let buf := wr32 buf (slot + 6) (n + 1)
  wr32 buf (slot + 2) (iSize (view buf slot) + 512)

/-- `write` with no hole in the parent: a new block for the parent. `buf` is the parent's
    inode-table block as it was read at the start. -/
def writeGrow (request : EXT2DriverRequest) (buf : Mem) (fs : Fs) : Int × Fs :=
  let parentInode := request.parentInode.toNat
  let blockIdx := fs.inodeBlock parentInode
  let parentBgd := inodeToBgd parentInode
  let (newblock, fs) := growSearch (List.range' parentBgd (8 - parentBgd)) fs
  if newblock = 0 then (-1, fs)
  else
    let buf := appendBlock buf (slotOffset parentInode) newblock
    let (newIno, fs) := allocateNode fs
    if newIno = 0 then (-1, fs)
    else
      let fs := createNode request newIno fs
      let fs := fs.writeBlocks newblock (singleEntry request newIno fs.zeroBuf)
      let fs := fs.writeBlocks blockIdx buf
      (0, syncMetadata fs)

/-- `write`. -/
def write (request : EXT2DriverRequest) (fs : Fs) : Int × Fs :=
  let parentInode := request.parentInode.toNat
  if parentInode = 0 then (2, fs)
  else
    let buf := fs.readBlocks (fs.inodeBlock parentInode)
    let parent := view buf (slotOffset parentInode)
    if iMode parent &&& 0x4000 = 0 then (2, fs)
    else match scanDir request parent fs with
      | some (blk, .hole off) => writeHole request blk off fs
      | some (_, _) => (1, fs)
      | none => writeGrow request buf fs

/-! ## `deallocate_node` and `delete` -/

/-- Clear the bit of `blockId` and raise the two counters. The text stands six times in
    `deallocate_node`. -/
def freeBlock (fs : Fs) (blockId : Nat) : Fs :=
  let grp := blockId / 256
  let bmp := fs.readBlocks (fs.bgdtCache grp).bgBlockBitmap.toNat
  let fs := fs.writeBlocks (fs.bgdtCache grp).bgBlockBitmap.toNat (clearBit bmp (blockId % 256))
  let fs := fs.modifyDesc grp fun d => { d with bgFreeBlocksCount := d.bgFreeBlocksCount + 1 }
  { fs with superBlock :=
      { fs.superBlock with sFreeBlocksCount := fs.superBlock.sFreeBlocksCount + 1 } }

/-- Free the nonzero ones among the first `n` pointers. -/
def freePtrs (ptrs : Nat → Nat) (n : Nat) (fs : Fs) : Fs :=
  (List.range n).foldl (fun fs i => if ptrs i ≠ 0 then freeBlock fs (ptrs i) else fs) fs

/-- The loop over the double indirect pointers, with `k` turns left and `total` blocks
    still to be freed. -/
def freeDouble (dblPtrs : Nat → Nat) : (k i total : Nat) → Fs → Fs
  | 0, _, _, fs => fs
  | k + 1, i, total, fs =>
      if total > 0 then
        if dblPtrs i ≠ 0 then
          let indPtrs := ptr (fs.readBlocks (dblPtrs i))
          let cnt := if total < 128 then total else 128
          let fs := freePtrs indPtrs cnt fs
          let fs := freeBlock fs (dblPtrs i)
          freeDouble dblPtrs k (i + 1) (total - cnt) fs
        else freeDouble dblPtrs k (i + 1) total fs
      else fs

/-- The single indirect part of `deallocate_node`: what remains, and the state. -/
def freeSingle (node : Mem) (remain : Nat) (fs : Fs) : Nat × Fs :=
  if remain > 0 ∧ iBlock node 12 ≠ 0 then
    let indPtrs := ptr (fs.readBlocks (iBlock node 12))
    let count := if remain < 128 then remain else 128
    let fs := freePtrs indPtrs count fs
    let fs := freeBlock fs (iBlock node 12)
    (if remain > count then remain - count else 0, fs)
  else (remain, fs)

/-- The double indirect part of `deallocate_node`. -/
def freeDoubleIndirect (node : Mem) (remain : Nat) (fs : Fs) : Fs :=
  if remain > 0 ∧ iBlock node 13 ≠ 0 then
    let dblPtrs := ptr (fs.readBlocks (iBlock node 13))
    let fs := freeDouble dblPtrs 128 0 remain fs
    freeBlock fs (iBlock node 13)
  else fs

/-- The three parts of `deallocate_node` that free the blocks of `node`. -/
def freeNodeBlocks (node : Mem) (fs : Fs) : Fs :=
  let remain := iBlocks node
  let fs := freePtrs (iBlock node) (min 12 remain) fs
  let (remain, fs) := freeSingle node (remain - min 12 remain) fs
  freeDoubleIndirect node remain fs

/-- `deallocate_node`. -/
def deallocateNode (inode : Nat) (fs : Fs) : Fs :=
  if inode = 0 then fs
  else
    let bg := inodeToBgd inode
    let buf := fs.readBlocks (fs.inodeBlock inode)
    let node := view buf (slotOffset inode)
    let fs := if iMode node &&& 0x4000 ≠ 0 ∧ (fs.bgdtCache bg).bgUsedDirsCount > 0 then
      fs.modifyDesc bg fun d => { d with bgUsedDirsCount := d.bgUsedDirsCount - 1 } else fs
    let fs := freeNodeBlocks node fs
    let fs := fs.writeBlocks (fs.inodeBlock inode) (fill buf (slotOffset inode) 0 70)
    let bmp := fs.readBlocks (fs.bgdtCache bg).bgInodeBitmap.toNat
    let fs := fs.writeBlocks (fs.bgdtCache bg).bgInodeBitmap.toNat
      (clearBit bmp (inodeToLocal inode))
    let fs := fs.modifyDesc bg fun d => { d with bgFreeInodesCount := d.bgFreeInodesCount + 1 }
    syncMetadata { fs with superBlock :=
      { fs.superBlock with sFreeInodesCount := fs.superBlock.sFreeInodesCount + 1 } }

/-- The record loop of `delete`: the offset of the first live record of the name, and of
    the record before it in the block. -/
def findEntry (request : EXT2DriverRequest) (dirBuf : Mem) (prev : Option Nat) (offset : Nat) :
    Option (Nat × Option Nat) :=
  if _h : offset < 512 then
    if _h' : entryRecLen dirBuf offset = 0 then none
    else if entryInode dirBuf offset ≠ 0 ∧ nameMatches request dirBuf offset then
      some (offset, prev)
    else findEntry request dirBuf (some offset) (offset + entryRecLen dirBuf offset)
  else none
  termination_by 512 - offset

/-- The block loop of `delete`: block, offset and previous offset of the entry. -/
def findDir (request : EXT2DriverRequest) (parent : Mem) (fs : Fs) :
    Option (Nat × Nat × Option Nat) :=
  ((List.range (iBlocks parent)).map (iBlock parent)).findSome? fun blockId =>
    if blockId = 0 then none
    else (findEntry request (fs.readBlocks blockId) none 0).map fun r => (blockId, r)

/-- Take the record at `off` out of its block: into the record before it, or, when it is
    the first one, by clearing its inode number. -/
def removeEntry (prev : Option Nat) (off : Nat) (buf : Mem) : Mem :=
  match prev with
  | some p =>
      let nameLen := entryNameLen buf off
      let buf := wr16 buf (p + 4) (entryRecLen buf p + entryRecLen buf off)
      let buf := wr32 buf off 0
      let buf := wr16 buf (off + 4) 0
      let buf := fill buf (off + 9) 0 nameLen
      let buf := wr8 buf (off + 8) 0
      wr16 buf (off + 6) 0
  | none => wr32 buf off 0

/-- `delete`. -/
def delete (request : EXT2DriverRequest) (fs : Fs) : Int × Fs :=
  let parentInode := request.parentInode.toNat
  if parentInode = 0 then (-1, fs)
  else
    let parent := view (fs.readBlocks (fs.inodeBlock parentInode)) (slotOffset parentInode)
    if iMode parent &&& 0x4000 = 0 then (-1, fs)
    else match findDir request parent fs with
      | none => (1, fs)
      | some (entryBlock, entryOffset, prev) =>
          let targetBuf := fs.readBlocks entryBlock
          let targetInode := entryInode targetBuf entryOffset
          let fileType := entryFileType targetBuf entryOffset
          if targetInode = 0 then (1, fs)
          else if request.isDirectory ∧ fileType ≠ 2 then (1, fs)
          else if request.isDirectory ∧ isDirectoryEmpty targetInode fs = false then (2, fs)
          else if ¬ request.isDirectory ∧ fileType ≠ 1 then (1, fs)
          else
            let fs := deallocateNode targetInode fs
            let fs := fs.writeBlocks entryBlock (removeEntry prev entryOffset targetBuf)
            (0, syncMetadata fs)

end LossOs.Ext2
