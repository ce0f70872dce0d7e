import Pinion64.Log
import Pinion64.Lib.Driver

/-! serialputc of log.c on a 16550: the core writes as fast as the line status lets it, the line sends
at its own pace. -/
namespace Pinion64

open Transition Driver

/-- The registers of the port, what its transmitter holds, and what it has sent. -/
structure Uart where
  interruptEnable : Byte
  lineControl : Byte
  modemControl : Byte
  divisorLow : Byte
  divisorHigh : Byte
  fifo : Bool
  queue : List Byte
  line : List Byte
  deriving DecidableEq

section Port

/-- How much the transmitter holds, with a FIFO of `size` bytes. -/
def Uart.depth (size : ℕ) (u : Uart) : ℕ := if u.fifo then size else 1

end Port

section Serial

end Serial

section Sending

variable {size n : ℕ} {u u₀ : Uart} {x t : List Byte} {c : Byte}

end Sending

section Setup

variable {size : ℕ} {u₀ : Uart} {R : Byte → Byte → Byte → Prop} {port : BitVec 16} {v : Byte}

end Setup

section Line

variable {size : ℕ} {u u' : Uart} {t : List Byte}

end Line
end Pinion64
