import Nyx.Interaction
import Nyx.FileTree
import Nyx.Utf8
import Nyx.CreateDirAll
import Nyx.Atomic
import Nyx.AtomicStep
import Nyx.AtomicHistory
import Nyx.AtomicPool
import Nyx.Durability
import Nyx.AtomicDurable
import Nyx.AtomicLasting
import Nyx.AlpmList
import Nyx.Cstr
import Nyx.Db
import Nyx.Handle
import Nyx.AlpmOutcome
import Nyx.AlpmErrors
import Nyx.AlpmNull
import Nyx.AlpmStrings
import Nyx.AlpmOwnership
import Nyx.DepSpec
import Nyx.Hash
import Nyx.ListInvariant
import Nyx.NameIdentity
import Nyx.AtomicFrame
import Nyx.AtomicLeftover
import Nyx.AtomicRejected
import Nyx.Layout
import Nyx.LayoutModes
import Nyx.AtomicLimit
import Nyx.HashPath
import Nyx.Terminal
import Nyx.TerminalRuns
import Nyx.UserConfig
import Nyx.AlpmFootprint
import Nyx.RootedTree
import Nyx.Schedule
import Nyx.Session
import Nyx.SessionHandles
import Nyx.SessionLoans
import Nyx.SessionMemory
import Nyx.System
import Nyx.SystemLayout
import Nyx.SystemOrder
import Nyx.SystemSnapshot
import Nyx.LayoutPaths
import Nyx.LayoutFiles
import Nyx.SystemPowerLoss
import Nyx.SystemReboots
import Nyx.PkgRecord
