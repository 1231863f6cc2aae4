import GemOS.Foundation.Bitmap
import GemOS.Foundation.Clones
import GemOS.Foundation.Fifo
import GemOS.Foundation.Layout
import GemOS.Foundation.Leaving
import GemOS.Foundation.Rotation
import GemOS.Foundation.Runs
import GemOS.Foundation.Spaces
import GemOS.Foundation.TableForest
import GemOS.Foundation.Tour
import GemOS.Memory.PageList
import GemOS.Memory.Frames
import GemOS.Memory.Scan
import GemOS.Memory.Grant
import GemOS.Memory.Supply
import GemOS.Memory.Count
import GemOS.Memory.Regions
import GemOS.Memory.Filling
import GemOS.Memory.Nodes
import GemOS.Memory.Pool
import GemOS.Memory.Queue
import GemOS.Memory.Chunks
import GemOS.Memory.Rounds
import GemOS.Paging.Entry
import GemOS.Paging.Walk
import GemOS.Paging.Tables
import GemOS.Paging.Segment
import GemOS.Paging.Write
import GemOS.Paging.Install
import GemOS.Paging.InstallSpec
import GemOS.Paging.Batch
import GemOS.Paging.ReadBack
import GemOS.Paging.KernelMap
import GemOS.Paging.Release
import GemOS.Paging.Identity
import GemOS.Paging.ApicPage
import GemOS.Paging.Cleanup
import GemOS.Paging.Trace
import GemOS.Paging.OtherFrames
import GemOS.Paging.View
import GemOS.Process.Context
import GemOS.Process.Kernel
import GemOS.Process.Schedule
import GemOS.Process.Fault
import GemOS.Process.Fork
import GemOS.Process.Syscall
import GemOS.Process.Tick
import GemOS.Process.Launch
import GemOS.Process.Machine
import GemOS.Process.StrayStores
import GemOS.Process.Space
import GemOS.Process.AccessEffects
import GemOS.Process.Accesses
import GemOS.Process.Calls
import GemOS.Process.TableEffects
import GemOS.Process.Sound
import GemOS.Process.Dispatch
import GemOS.Process.CallInvariant
import GemOS.Process.Persistence
import GemOS.Process.Populate
import GemOS.Process.Offspring
import GemOS.Process.Birth
import GemOS.Process.Start
import GemOS.Process.Records
import GemOS.Process.RunInvariant
import GemOS.Process.Seats
import GemOS.Process.Names
import GemOS.Process.Parked
import GemOS.Process.Sleep
import GemOS.Process.Resume
import GemOS.Process.Fairness
import GemOS.Process.Waiting
import GemOS.Process.Population
import GemOS.Process.Running
import GemOS.Process.Alarm
import GemOS.Process.Exhaustion
import GemOS.Process.Reuse
import GemOS.Process.Crowding
import GemOS.Process.PageTouches
import GemOS.Process.Segments
import GemOS.Process.Threads
import GemOS.Process.Output
import GemOS.Process.Image
import GemOS.Process.Teardown
import GemOS.Process.Protection
import GemOS.Process.Whole
import GemOS.Process.PagingActs
import GemOS.Process.ProcessActs
import GemOS.Process.ForkActs
import GemOS.Process.EventActs
import GemOS.Process.LaunchActs
import GemOS.Process.SignalStacks
import GemOS.Process.Isolation
import GemOS.Process.Heredity
import GemOS.Process.Coherence
import GemOS.Process.Reclaim
import GemOS.Shell.Commands
import GemOS.Shell.Arguments
import GemOS.Shell.Printf
import GemOS.Shell.Numerals
