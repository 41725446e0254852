import Lanthorn.Library.Ring
import Lanthorn.Library.AddressTree
import Lanthorn.Library.RedBlack
import Lanthorn.Kernel.Basic
import Lanthorn.Kernel.List
import Lanthorn.Kernel.Rbt
import Lanthorn.Kernel.RbtDelete
import Lanthorn.Kernel.RbtSearch
import Lanthorn.Kernel.Slot
import Lanthorn.Library.Run
import Lanthorn.Memory.Pm
import Lanthorn.Memory.PmBuddy
import Lanthorn.Memory.PmContract
import Lanthorn.Kernel.IdxAlct
import Lanthorn.Kernel.IdxContract
import Lanthorn.Kernel.RbtAugment
import Lanthorn.Library.Bytes
import Lanthorn.Library.Region
import Lanthorn.Library.TwoLevel
import Lanthorn.Memory.KernSpace
import Lanthorn.Memory.Kmalloc
import Lanthorn.Memory.PageFault
import Lanthorn.Memory.PtbFork
import Lanthorn.Msg.Confidential
import Lanthorn.Msg.Wake
import Lanthorn.Proc.Mutex
import Lanthorn.Proc.Process
import Lanthorn.Proc.Wait
import Lanthorn.Srv.Call
import Lanthorn.Srv.Replies
import Lanthorn.Kernel.Buf
import Lanthorn.Kernel.IdxAscending
import Lanthorn.Kernel.RbtKeyed
import Lanthorn.Kernel.Str
import Lanthorn.Memory.Boot
import Lanthorn.Memory.ForkedSpace
import Lanthorn.Memory.Phyops
import Lanthorn.Memory.PtbUnmap
import Lanthorn.Memory.Slab
import Lanthorn.Msg.Calls
import Lanthorn.Msg.ReadBounds
import Lanthorn.Proc.BufRace
import Lanthorn.Proc.Spinlock
import Lanthorn.Proc.Table
import Lanthorn.Proc.Rwlock
import Lanthorn.Arch.Mp
import Lanthorn.Srv.Bounds
import Lanthorn.Srv.Called
import Lanthorn.Usr.File
import Lanthorn.Usr.FileDelete
import Lanthorn.Usr.FileImage
import Lanthorn.Usr.FileList
import Lanthorn.Usr.FileNames
import Lanthorn.Usr.FileRequests
import Lanthorn.Usr.Msg
