import LossOs.Ext2.Remove
import LossOs.Ext2.Fresh
import LossOs.Ext2.Exclusive
import LossOs.Ext2.RoundTrip
import LossOs.Ext2.EntryLists
import LossOs.Ext2.Totals
import LossOs.Ext2.Remount
import LossOs.Ext2.Undo
import LossOs.Kernel.Frames
import LossOs.Kernel.RoundRobin
import LossOs.Ext2.Isolation
import LossOs.Ext2.Complete
import LossOs.Ext2.Dangling
import LossOs.Ext2.Listing
import LossOs.Shell.Cd
import LossOs.Shell.Rm
import LossOs.Shell.Cp
import LossOs.Shell.Bin
import LossOs.Ext2.InodeAlloc
import LossOs.Ext2.BadParent
import LossOs.Kernel.Admission
import LossOs.Kernel.FreePage
import LossOs.Shell.Mkdir
import LossOs.Shell.CommandLine
import LossOs.Ext2.DirFree
import LossOs.Ext2.Lookup
import LossOs.Ext2.Scans
import LossOs.Ext2.Cost
import LossOs.Drivers.Console
import LossOs.Shell.SplitPath
import LossOs.Shell.Terminal
import LossOs.Shell.Kill
import LossOs.Shell.FindChild
import LossOs.Shell.PathDisplay
import LossOs.Shell.FindExactly
import LossOs.Clib.Strings
import LossOs.Drivers.Shift
import LossOs.Drivers.Disk
import LossOs.Drivers.Cmos
import LossOs.Ext2.PathLookup
import LossOs.Ext2.BlockTrees
import LossOs.Ext2.StoreRefines
import LossOs.Os.Exec
import LossOs.Kernel.TimeSharing
import LossOs.Os.Boot
import LossOs.Os.Typing
import LossOs.Os.Ls
import LossOs.Os.Cat
