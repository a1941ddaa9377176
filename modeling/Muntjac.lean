import Muntjac.Sync.Numerals
import Muntjac.Sync.Run
import Muntjac.Sync.Bits
import Muntjac.Sync.Select
import Muntjac.Sync.RoundRobin
import Muntjac.Sync.Fifo
import Muntjac.Sync.Fields
import Muntjac.Tl.Burst
import Muntjac.Tl.Msg
import Muntjac.Tl.BroadcastCoherence
import Muntjac.Core.Tlb
import Muntjac.Core.Sv39
import Muntjac.Core.Ptw
import Muntjac.Core.DataRam
import Muntjac.Core.Translation
import Muntjac.Core.TagRam
import Muntjac.Core.Icache
import Muntjac.Core.IcacheFence
import Muntjac.Core.TranslationWalk
import Muntjac.Core.IcacheMem
import Muntjac.Core.IcacheControl
import Muntjac.Core.IcacheContents
import Muntjac.Core.IcacheAnswer
import Muntjac.Core.IcacheProgress
import Muntjac.Core.IcacheReturns
import Muntjac.Core.DcacheOps
import Muntjac.Core.Dcache
import Muntjac.Core.DcacheLock
import Muntjac.Core.DcacheTranslate
import Muntjac.Core.DcacheTags
import Muntjac.Core.DcacheAccess
import Muntjac.Core.DcacheReserve
import Muntjac.Core.PagePermission
import Muntjac.Pipeline.Alu
import Muntjac.Pipeline.Backend
import Muntjac.Pipeline.BackendTrap
import Muntjac.Pipeline.CsRegisters
import Muntjac.Pipeline.Privilege
import Muntjac.Pipeline.Interrupts
import Muntjac.Pipeline.CsrLaw
import Muntjac.Riscv.Instr
import Muntjac.Pipeline.CompressedDecoder
import Muntjac.Pipeline.Decoder
import Muntjac.Pipeline.DecoderLegal
import Muntjac.Riscv.Exec
import Muntjac.Pipeline.DecodeExec
import Muntjac.Pipeline.InstrAlign
import Muntjac.Pipeline.AlignFaithful
import Muntjac.Pipeline.Frontend
import Muntjac.Pipeline.FrontendRedirect
import Muntjac.Pipeline.FrontendDeliver
import Muntjac.Pipeline.BackendControl
import Muntjac.Pipeline.BackendPath
import Muntjac.Pipeline.BackendFlags
import Muntjac.Pipeline.BackendForward
import Muntjac.Sync.Stream
import Muntjac.Sync.Subword
import Muntjac.Tl.Beats
import Muntjac.Tl.Turns
import Muntjac.Tl.AdapterBram
import Muntjac.Pipeline.Predictors
import Muntjac.Tl.Width
import Muntjac.Tl.Split
import Muntjac.Tl.Join
import Muntjac.Tl.Mask
import Muntjac.Tl.DataDownsizer
import Muntjac.Tl.DataUpsizer
import Muntjac.Sync.Chunks
import Muntjac.Tl.Messages
import Muntjac.Tl.SizeDownsizer
import Muntjac.Tl.SizeFragments
import Muntjac.Tl.SizeRequests
import Muntjac.Tl.SizeResponses
import Muntjac.Tl.SizeTransparent
import Muntjac.Sync.Ring
import Muntjac.Tl.FifoConverter
import Muntjac.Tl.FifoOrder
import Muntjac.Fpu.Arithmetic
import Muntjac.Ieee.Recode
import Muntjac.Fpu.Repack
import Muntjac.Fpu.Ordering
import Muntjac.Fpu.Convert
import Muntjac.Tl.Sockets
import Muntjac.Tl.Grants
import Muntjac.Tl.BurstTracker
import Muntjac.Tl.Slots
import Muntjac.Tl.SourceDownsizer
import Muntjac.Tl.SourceSlots
import Muntjac.Tl.SinkUpsizer
import Muntjac.Tl.Terminators
import Muntjac.Tl.SinkUse
import Muntjac.Core.PtwWalk
import Muntjac.Core.TlbFlush
import Muntjac.Core.Llc
import Muntjac.Core.LlcTrackers
import Muntjac.Core.LlcRouting
import Muntjac.Core.LlcEmpty
import Muntjac.Core.DataArray
import Muntjac.Pipeline.Divider
import Muntjac.Pipeline.Multiplier
import Muntjac.Pipeline.Decompress
import Muntjac.Pipeline.CounterEnable
import Muntjac.Pipeline.ReturnStack
import Muntjac.Sync.AsyncFifo
import Muntjac.Sync.Arbiter
import Muntjac.Sync.AsyncOrder
import Muntjac.Sync.Carrier
import Muntjac.Sync.RegSlices
import Muntjac.Sync.FifoSync
import Muntjac.Tl.LinkStages
import Muntjac.Tl.FifoAsync
