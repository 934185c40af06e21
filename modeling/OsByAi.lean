import OsByAi.ByteMemory
import OsByAi.Word64
import OsByAi.LoggedWord
import OsByAi.PackedBitmap
import OsByAi.RadixTree
import OsByAi.WalkCache
import OsByAi.SetAllocator
import OsByAi.SwapArray
import OsByAi.CallTree
import OsByAi.WordStack
import OsByAi.BootInformation
import OsByAi.PmmModel
import OsByAi.PmmInvariant
import OsByAi.PmmBootMap
import OsByAi.PmmAcceptance
import OsByAi.PmmRefinement
import OsByAi.PagingModel
import OsByAi.PagingEntries
import OsByAi.PagingTree
import OsByAi.PagingWalk
import OsByAi.PagingGrowth
import OsByAi.PagingAgree
import OsByAi.PagingReclaim
import OsByAi.PagingDynamic
import OsByAi.PagingBuild
import OsByAi.PagingInit
import OsByAi.PagingRange
import OsByAi.KernelRuns
import OsByAi.PagingAddressSpace
import OsByAi.PagingRefinement
import OsByAi.PagingFailure
import OsByAi.PagingOwnership
import OsByAi.PagingIsolation
import OsByAi.PagingFill
import OsByAi.PagingInitFailure
import OsByAi.PagingBudget
import OsByAi.PagingBounds
import OsByAi.LossyFifo
import OsByAi.ReceiveRing
import OsByAi.ConsoleModel
import OsByAi.ConsoleDiscipline
import OsByAi.ConsoleReception
import OsByAi.ConsoleKeys
import OsByAi.SerialModel
import OsByAi.SerialReception
import OsByAi.ConsoleSleep
import OsByAi.PicModel
import OsByAi.PicDispatch
import OsByAi.PicBalance
import OsByAi.InterruptEntry
import OsByAi.ElfModel
import OsByAi.ElfSegments
import OsByAi.ElfPlacement
import OsByAi.ElfBounds
import OsByAi.ElfAcceptance
import OsByAi.LoaderModel
import OsByAi.LoaderRead
import OsByAi.LoaderInfo
import OsByAi.LoaderHandover
import OsByAi.LoaderResources
import OsByAi.KernelMain
import OsByAi.BootContract
import OsByAi.PagingGuards
import OsByAi.PagingRam
import OsByAi.BootMapping
import OsByAi.PagingBlocks
import OsByAi.TranslationCache
import OsByAi.PagingCoherence
import OsByAi.TranslationRuns
import OsByAi.Attempt
import OsByAi.BootChecks
import OsByAi.PmmBootCheck
import OsByAi.PagingCheckCalls
import OsByAi.PagingBootCheck
import OsByAi.BootCheckRuns
import OsByAi.HeldMemory
import OsByAi.PagingAcceptance
import OsByAi.SerialTransmit
import OsByAi.FixedDigits
import OsByAi.DescriptorTables
import OsByAi.ExceptionReport
import OsByAi.TimerCheck
import OsByAi.IrqAccounting
