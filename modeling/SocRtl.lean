import SocRtl.Lib.Bytes
import SocRtl.Lib.CarrySave
import SocRtl.Lib.Circular
import SocRtl.Lib.Clocked
import SocRtl.Lib.Crossing
import SocRtl.Lib.Division
import SocRtl.Lib.Gray
import SocRtl.Lib.OrderStat
import SocRtl.Lib.Queue
import SocRtl.Lib.Raster
import SocRtl.Lib.Ring
import SocRtl.Lib.RoundRobin
import SocRtl.Lib.Store
import SocRtl.Lib.Tagged
import SocRtl.Handshake
import SocRtl.Handshake.Chain
import SocRtl.Handshake.RegisteredReady
import SocRtl.Handshake.SpillRegister
import SocRtl.Median.SortValue
import SocRtl.Median.Llmf
import SocRtl.Median.MedainBuffer5
import SocRtl.Median.LineBuffers
import SocRtl.Median.Median5x5
import SocRtl.Median.WindowLine
import SocRtl.Median.Window
import SocRtl.Median.BottomLines
import SocRtl.Fifo.SyncFifo
import SocRtl.Fifo.SyncFifoSp
import SocRtl.Fifo.AsyncFifo
import SocRtl.Fifo.GrayPointers
import SocRtl.Fifo.FifoV3
import SocRtl.Alu.Alu
import SocRtl.Alu.Cop
import SocRtl.Video.TimingGen
import SocRtl.Video.Settling
import SocRtl.Video.ImageSource
import SocRtl.Mem.Sram
import SocRtl.Mem.AwW
import SocRtl.Mem.AxiLite
import SocRtl.Mem.Strobes
import SocRtl.Mem.Responses
import SocRtl.Mem.Flat
import SocRtl.Bus.AddrDecode
import SocRtl.Bus.ApbRegs
import SocRtl.Bus.ApbPacking
import SocRtl.Bus.Backbone
import SocRtl.Bus.AxiLiteRegfile
import SocRtl.Bus.RegfileWrites
import SocRtl.Dma.ImpCh
import SocRtl.Dma.Channels
import SocRtl.Dma.Remaining
import SocRtl.System.WriteDma
import SocRtl.System.DmaMemory
import SocRtl.Cpu.Pcpi
import SocRtl.Cpu.PcpiDiv
import SocRtl.Cpu.PcpiMul
import SocRtl.Cpu.PcpiFastMul
import SocRtl.Cpu.PcpiPort
import SocRtl.Cpu.Rv32m
import SocRtl.Uart.SimpleUart
import SocRtl.Uart.Link
import SocRtl.Xbar.RrArbTree
import SocRtl.Xbar.LiteDemux
import SocRtl.Xbar.LiteMux
import SocRtl.Xbar.LiteXbar
import SocRtl.Xbar.LiteXbarRead
import SocRtl.Xbar.ReadDrain
import SocRtl.Xbar.WriteDrain
