import DragonStub.Base.ByteBlock
import DragonStub.Base.ByteMemory
import DragonStub.Base.ByteWord
import DragonStub.Base.CString
import DragonStub.Base.DeviceTree
import DragonStub.Base.FlatImage
import DragonStub.Base.FlatTree
import DragonStub.Base.Interaction
import DragonStub.Base.Layout
import DragonStub.Base.Numeral
import DragonStub.Base.Sink
import DragonStub.Base.Stateful
import DragonStub.Base.Trace
import DragonStub.Base.Utf16
import DragonStub.Base.Word
import DragonStub.Boot.Align
import DragonStub.Boot.Cmdline
import DragonStub.Boot.Decimal
import DragonStub.Boot.Efi
import DragonStub.Boot.Elf
import DragonStub.Boot.ExitBoot
import DragonStub.Boot.Fdt
import DragonStub.Boot.Handover
import DragonStub.Boot.Kernel
import DragonStub.Boot.Libfdt
import DragonStub.Boot.LibfdtRw
import DragonStub.Boot.LibfdtSw
import DragonStub.Boot.Options
import DragonStub.Boot.Pages
import DragonStub.Boot.Routines
import DragonStub.Boot.Virtmap
import DragonStub.Boot.Vsprintf
import DragonStub.Verif.AlignedPages
import DragonStub.Verif.Arguments
import DragonStub.Verif.BootTable
import DragonStub.Verif.CmdlineBytes
import DragonStub.Verif.CmdlineCount
import DragonStub.Verif.CmdlineText
import DragonStub.Verif.Decimal
import DragonStub.Verif.ElfRuns
import DragonStub.Verif.ExitBoot
import DragonStub.Verif.ExitRuns
import DragonStub.Verif.FdtBlobs
import DragonStub.Verif.FdtCreate
import DragonStub.Verif.FdtEdits
import DragonStub.Verif.FdtFunctions
import DragonStub.Verif.FdtImage
import DragonStub.Verif.FdtInplace
import DragonStub.Verif.FdtLaws
import DragonStub.Verif.FdtMemmap
import DragonStub.Verif.FdtNodes
import DragonStub.Verif.FdtOpen
import DragonStub.Verif.FdtPack
import DragonStub.Verif.FdtPath
import DragonStub.Verif.FdtProps
import DragonStub.Verif.FdtReorder
import DragonStub.Verif.FdtReserve
import DragonStub.Verif.FdtSetprop
import DragonStub.Verif.FdtSubnode
import DragonStub.Verif.FdtTokens
import DragonStub.Verif.FdtTree
import DragonStub.Verif.FdtUpdate
import DragonStub.Verif.HandleCmdline
import DragonStub.Verif.HandoverRuns
import DragonStub.Verif.HeaderRuns
import DragonStub.Verif.KernelLoaded
import DragonStub.Verif.LoadFailure
import DragonStub.Verif.MapHandover
import DragonStub.Verif.Memmove
import DragonStub.Verif.MemoryMap
import DragonStub.Verif.NextArg
import DragonStub.Verif.Number
import DragonStub.Verif.OptionFlags
import DragonStub.Verif.OptionText
import DragonStub.Verif.Ownership
import DragonStub.Verif.PageLimit
import DragonStub.Verif.ParseOptions
import DragonStub.Verif.PayloadReads
import DragonStub.Verif.ProgramAccept
import DragonStub.Verif.ProgramBounds
import DragonStub.Verif.ProgramImage
import DragonStub.Verif.QuietExit
import DragonStub.Verif.RuntimeMap
import DragonStub.Verif.StringWidth
import DragonStub.Verif.Strtoull
import DragonStub.Verif.TableAccept
import DragonStub.Verif.Virtmap
import DragonStub.Verif.VsprintfOutput
import DragonStub.Verif.VsprintfReturns
import DragonStub.Verif.WordScan
