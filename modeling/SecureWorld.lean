import SecureWorld.Boot.BlobFit
import SecureWorld.Boot.CarveOuts
import SecureWorld.Boot.Loader
import SecureWorld.Boot.PublishedRegions
import SecureWorld.Bundle.ExclaveCore
import SecureWorld.Bundle.TrustCacheList
import SecureWorld.CallGraph.Reach
import SecureWorld.DeviceTree.AdtNode
import SecureWorld.DeviceTree.DartIds
import SecureWorld.DeviceTree.Decoding
import SecureWorld.DeviceTree.Encoding
import SecureWorld.DeviceTree.Fixup
import SecureWorld.DeviceTree.FixupFrames
import SecureWorld.DeviceTree.Format
import SecureWorld.DeviceTree.Frames
import SecureWorld.DeviceTree.Muting
import SecureWorld.DeviceTree.Objects
import SecureWorld.DeviceTree.PyInt
import SecureWorld.DeviceTree.Reencode
import SecureWorld.DeviceTree.RoundTrip
import SecureWorld.DeviceTree.Truncation
import SecureWorld.DeviceTree.Values
import SecureWorld.Foundations.A64
import SecureWorld.Foundations.Armv8
import SecureWorld.Foundations.BreadthFirst
import SecureWorld.Foundations.Detours
import SecureWorld.Foundations.DyldStarts
import SecureWorld.Foundations.Effects
import SecureWorld.Foundations.FileSystem
import SecureWorld.Foundations.GuardedCall
import SecureWorld.Foundations.LastWrite
import SecureWorld.Foundations.LittleEndian
import SecureWorld.Foundations.Loops
import SecureWorld.Foundations.Memory
import SecureWorld.Foundations.MemoryRegion
import SecureWorld.Foundations.Noninterference
import SecureWorld.Foundations.PageWrites
import SecureWorld.Foundations.QueueDevice
import SecureWorld.Foundations.RegisterWidths
import SecureWorld.Foundations.Reordering
import SecureWorld.Foundations.RingBuffer
import SecureWorld.Foundations.RoseTree
import SecureWorld.Foundations.Run
import SecureWorld.Foundations.StraightLine
import SecureWorld.Foundations.StrideChain
import SecureWorld.Foundations.TextLines
import SecureWorld.Foundations.TopCarving
import SecureWorld.Foundations.Utf8
import SecureWorld.Foundations.WordBits
import SecureWorld.Interrupts.Aic
import SecureWorld.Interrupts.Delivery
import SecureWorld.Interrupts.MailboxLine
import SecureWorld.Iommu.Dart
import SecureWorld.Kernelcache.BranchScan
import SecureWorld.Kernelcache.ChainScript
import SecureWorld.Kernelcache.ChainedFixups
import SecureWorld.Kernelcache.FixupLayout
import SecureWorld.Kernelcache.SegmentMap
import SecureWorld.Loader.ChainedFixups
import SecureWorld.Loader.CtorTrampoline
import SecureWorld.Loader.DyldLayout
import SecureWorld.Loader.EntryDiversion
import SecureWorld.Loader.PerThreadRegistry
import SecureWorld.Loader.Rewriting
import SecureWorld.Loader.Traversal
import SecureWorld.Loader.UniformRebase
import SecureWorld.Mailbox.AfkHandshake
import SecureWorld.Mailbox.AfkTransport
import SecureWorld.Mailbox.AnsWindow
import SecureWorld.Mailbox.Asc
import SecureWorld.Mailbox.Coprocessor
import SecureWorld.Mailbox.Dcp
import SecureWorld.Mailbox.EndpointMap
import SecureWorld.Mailbox.EngineAgreement
import SecureWorld.Mailbox.FlowControl
import SecureWorld.Mailbox.Frame
import SecureWorld.Mailbox.GuestAccess
import SecureWorld.Mailbox.Hello
import SecureWorld.Mailbox.QueueRefinement
import SecureWorld.Mailbox.RTKit
import SecureWorld.Mailbox.Tables
import SecureWorld.Md0.SizeWidening
import SecureWorld.Md0.XrefFast
import SecureWorld.Md0.XrefSoundness
import SecureWorld.Panel.Console
import SecureWorld.Panel.Detection
import SecureWorld.Panel.HiddenText
import SecureWorld.Panel.Keyboard
import SecureWorld.Panel.Paint
import SecureWorld.Panel.PaintedFrame
import SecureWorld.Patcher.AnchorReports
import SecureWorld.Patcher.DscMaxSlide
import SecureWorld.Patcher.ErrnoProbe
import SecureWorld.Patcher.Fileset
import SecureWorld.Patcher.FilesetReaders
import SecureWorld.Patcher.FunctionLayout
import SecureWorld.Patcher.GateEdits
import SecureWorld.Patcher.GateSearch
import SecureWorld.Patcher.Img4Magazine
import SecureWorld.Patcher.Interference
import SecureWorld.Patcher.MisplacedStub
import SecureWorld.Patcher.MountAuth
import SecureWorld.Patcher.PanicGate
import SecureWorld.Patcher.PatchRun
import SecureWorld.Patcher.PatchedWords
import SecureWorld.Patcher.ProbeReaders
import SecureWorld.Patcher.Prologue
import SecureWorld.Patcher.ProxyTrampoline
import SecureWorld.Patcher.PyBytes
import SecureWorld.Patcher.RtbuddyImages
import SecureWorld.Patcher.RtbuddyOrder
import SecureWorld.Patcher.RtbuddyScripts
import SecureWorld.Patcher.Sites
import SecureWorld.Patcher.SkipAuthProbe
import SecureWorld.Patcher.SsvDryRun
import SecureWorld.Patcher.SsvHeaders
import SecureWorld.Patcher.SsvPatches
import SecureWorld.Patcher.SsvRerun
import SecureWorld.Patcher.SsvTargets
import SecureWorld.Patcher.StubByString
import SecureWorld.Patcher.StubRuns
import SecureWorld.Patcher.StubbedCode
import SecureWorld.Patcher.Stubs
import SecureWorld.Patcher.VerifiedPatches
import SecureWorld.Patcher.Xref
import SecureWorld.Patcher.XrefCompleteness
import SecureWorld.Power.Pmgr
