import AgilA32.Board.Board
import AgilA32.Rv32i.Isa
import AgilA32.Core.Refine
import AgilA32.Clocked.Shift
import AgilA32.Engine.Transfer
import AgilA32.Mem.Access
import AgilA32.Top.Instruction
import AgilA32.Top.Handshake
import AgilA32.Engine.Wave
import AgilA32.Top.PinSafety
import AgilA32.Mem.Ram
import AgilA32.Mem.FlashWindow
import AgilA32.Top.Events
import AgilA32.Top.Arch
import AgilA32.Boot.Exec
import AgilA32.Boot.Listen
import AgilA32.Boot.NoHost
import AgilA32.Boot.Receive
import AgilA32.Boot.Load
import AgilA32.Boot.Program
import AgilA32.Board.SpiTransfer
import AgilA32.Board.Link
import AgilA32.Board.RamFlash
import AgilA32.Flash.Simulation
import AgilA32.Asm.Agree
import AgilA32.Mem.Flat
import AgilA32.Programs.Ps2Reader
import AgilA32.Boot.SpiExchange
import AgilA32.Mem.Timer
import AgilA32.Programs.Ps2Ascii
import AgilA32.Programs.St7789
import AgilA32.Core.Straight
import AgilA32.Programs.Constants
import AgilA32.Programs.Delay
import AgilA32.Asm.RomAsm
import AgilA32.Asm.History
import AgilA32.Flash.Wrap
import AgilA32.Flash.Halt
import AgilA32.Boot.Garbage
import AgilA32.Soc.Pins
import AgilA32.Boot.Script
import AgilA32.Boot.Source
import AgilA32.Top.Progress
import AgilA32.Programs.Display
import AgilA32.Programs.Typing
import AgilA32.Boot.Driver
import AgilA32.Flash.PagedSource
