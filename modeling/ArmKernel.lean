import ArmKernel.Core.CallBounds
import ArmKernel.Core.ChannelDelivery
import ArmKernel.Core.ChannelNames
import ArmKernel.Core.ChannelWakeup
import ArmKernel.Core.Commands
import ArmKernel.Core.Copy
import ArmKernel.Core.CrashSafety
import ArmKernel.Core.CreateDelete
import ArmKernel.Core.Descriptors
import ArmKernel.Core.DirectoryLookup
import ArmKernel.Core.Fairness
import ArmKernel.Core.FileBounds
import ArmKernel.Core.FileStore
import ArmKernel.Core.FsckRuns
import ArmKernel.Core.Isolation
import ArmKernel.Core.Ls
import ArmKernel.Core.Move
import ArmKernel.Core.Navigation
import ArmKernel.Core.ParentLinks
import ArmKernel.Core.PathSafety
import ArmKernel.Core.PingPong
import ArmKernel.Core.PowerCuts
import ArmKernel.Core.PowerCycles
import ArmKernel.Core.Priorities
import ArmKernel.Core.Program
import ArmKernel.Core.Rally
import ArmKernel.Core.ReadOnly
import ArmKernel.Core.Rendezvous
import ArmKernel.Core.Rotation
import ArmKernel.Core.RoundRobin
import ArmKernel.Core.Shell
import ArmKernel.Core.Shortage
import ArmKernel.Core.Tables
import ArmKernel.Core.TreeRuns
import ArmKernel.Device.Backing
import ArmKernel.Device.Sessions
import ArmKernel.Fs.Allocator
import ArmKernel.Fs.CutRemoval
import ArmKernel.Fs.Regrow
import ArmKernel.Fs.Release
import ArmKernel.User.Arithmetic
import ArmKernel.User.Numerals
